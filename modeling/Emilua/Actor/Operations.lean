import Emilua.Actor.System
import Emilua.Ipc.Receive

/-!
What a running fiber can do to the channels, what a posted handler does when
its turn comes, and what a completed wait on an IPC service does. Calls that
only raise an error in the calling fiber leave the state as it is.
-/
namespace Emilua.Actor
open Emilua Ipc

namespace State

/-- `chan_send` through an address whose VM is still there. The message has
been copied, addresses included. -/
def chanSend (s : State) (v : VmId) (f : FiberId) (handle : Nat) (d : VmId) (msg : Value) : State :=
  let id := s.fresh
  let s := ((s.copyAddresses msg.addresses).record (s.hist.send ⟨id, (v, f), d⟩)).tick
  let s := s.modify v (Vm.switch · f (.send handle d) (.sending id d))
  let s := s.post d (.deliver (v, f) msg id)
  s.yield v

/-- `chan_receive` after its checks: the oldest queued message is taken. -/
def receiveQueuedEntry (s : State) (v : VmId) (e : SenderState) (es : List SenderState) : State :=
  let s := s.modify v fun m => { m with incoming := es }
  match e.vm with
  | none => s.adoptAddresses v e.msg.addresses
  | some u =>
      let s := (s.post u (.resume (some e.fiber) none)).record
        (s.hist.deliver ⟨e.id, (u, e.fiber), v⟩)
      s.adoptAddresses v e.msg.addresses

/-- `chan_receive` when nothing is queued: all services are armed and the fiber
waits. -/
def waitForMessage (s : State) (v : VmId) (f : FiberId) : State :=
  let id := s.fresh
  let s := s.modify v fun m =>
    { (m.switch f .receive (.receiving id)).enqueueServices with recvFiber := some f }
  s.tick.yield v

def chanReceive (s : State) (v : VmId) (f : FiberId) : State :=
  let m := s.vms v
  if m.isOpen = false then s
  else if m.recvFiber.isSome then s
  else
    match m.incoming with
    | e :: es => s.receiveQueuedEntry v e es
    | [] => if m.nsenders = 0 then s else s.waitForMessage v f

def inboxClose (s : State) (v : VmId) : ExecM State :=
  let m := s.vms v
  if m.isOpen = false then .ok s
  else
    let s :=
      match m.recvFiber with
      | none => s
      | some g =>
          (s.modify v fun m => { m with recvFiber := none }).post v
            (.resume (some g) (some .channelClosed))
    (s.modify v fun m => { m with isOpen := false }).clearIncoming v m.incoming

/-- The inbox userdata is collected. No fiber waits then: it would hold it. -/
def inboxGc (s : State) (v : VmId) : ExecM State :=
  let m := s.vms v
  if m.isOpen = false then .ok s
  else (s.modify v fun m => { m with recvFiber := none, isOpen := false }).clearIncoming v m.incoming

/-- `fiber_interrupt` of another fiber of the same VM. -/
def fiberInterrupt (s : State) (v : VmId) (g : FiberId) : ExecM State :=
  let clear := fun m : Vm => m.setFiber g fun g => { g with interrupter := .none }
  match ((s.vms v).fibers g).interrupter with
  | .none => .ok s
  | .send handle d =>
      -- the closure reads the address through its handle
      if ((s.vms v).addresses.lookup handle).isNone then .error .closedHandle
      else if (s.vms d).alive then .ok ((s.post d (.interruptSend v g)).modify v clear)
      else .ok (s.modify v clear)
  | .receive =>
      let recvFiber := (s.vms v).recvFiber
      let s := s.modify v fun m => { m with recvFiber := none }
      .ok ((s.post v (.resume recvFiber (some .interrupted))).modify v clear)

/-- `ipc_actor_chan_send` turns an address into a service of the VM it leads to. -/
def exportAddress (s : State) (d : VmId) : State :=
  if (s.vms d).alive then
    ((s.modify d fun m => { m with nsenders := m.nsenders + 1 }).post d (.attachService s.fresh)).tick
  else s

/-- `ipc_actor_chan_send` turns the own inbox into a service of this VM. -/
def exportInbox (s : State) (v : VmId) : State :=
  (s.modify v fun m =>
    { m with
      nsenders := m.nsenders + 1
      services := m.services ++ [⟨s.fresh, false⟩] }).tick

def addVm (s : State) (m : Vm) : State :=
  { s with vms := Function.update s.vms s.vmCount m, vmCount := s.vmCount + 1 }

@[simp] theorem addVm_vms_self (s : State) (m : Vm) : (s.addVm m).vms s.vmCount = m :=
  Function.update_self ..

theorem addVm_vms_ne (s : State) {u : VmId} (h : u ≠ s.vmCount) (m : Vm) :
    (s.addVm m).vms u = s.vms u := Function.update_of_ne h ..

/-- The new VM's address is handed to the fiber that spawned it. -/
def spawnVm (s : State) (v : VmId) : State :=
  (s.addVm (Vm.fresh 1)).adoptAddresses v [s.vmCount]

/-- `vm_context::close`. Closing the Lua state destroys the addresses it holds. -/
def vmClose (s : State) (v : VmId) : ExecM State := do
  let m := s.vms v
  let s := (s.modify v fun m => { m with addresses := [] }).dropAddresses (m.addresses.map Prod.snd)
  let s ← (s.modify v Vm.invalidated).clearIncoming v m.incoming
  .ok ((s.modify v fun m => { m with services := [] }).yield v)

/-- The end of the main fiber closes an inbox that nobody imported. -/
def closeUnimported (s : State) (v : VmId) (f : FiberId) : ExecM State :=
  let m := s.vms v
  if f = 0 ∧ m.imported = false then
    (s.modify v fun m => { m with isOpen := false }).clearIncoming v m.incoming
  else .ok s

/-- A joiner goes on in place of the fiber it waited for. -/
def resumeJoiner (s : State) (v : VmId) : Option FiberId → ExecM State
  | none => .ok (s.yield v)
  | some g =>
      if ((s.vms v).fibers g).suspension = .elsewhere then .ok (s.modify v (Vm.resumed · g))
      else .error .disabled

/-- `fiber_epilogue` of the current fiber. -/
def fiberEpilogue (s : State) (v : VmId) (f : FiberId) (joiner : Option FiberId) : ExecM State := do
  let s := s.modify v fun m => m.setFiber f fun g => { g with suspension := .finished }
  let s ← s.closeUnimported v f
  s.resumeJoiner v joiner

/-- `vm_context::~vm_context`, when nobody can get hold of the VM any more. -/
def destroyVm (s : State) (v : VmId) : ExecM State :=
  if (s.vms v).valid then s.vmClose v else .ok s

/-! Handlers. -/

/-- A message is passed to the waiting fiber, which runs at once; the sender is
told when it yields. -/
def handOver (s : State) (v : VmId) (f : FiberId) (p : Party) (msg : Value) (id : Nat) :
    ExecM State := do
  let s := s.modify v fun m => { m with recvFiber := none }
  let s ← s.fiberResume v (some f) none
  let s := (s.modify v fun m => { m with cont := some p }).record (s.hist.deliver ⟨id, p, v⟩)
  .ok (s.adoptAddresses v msg.addresses)

def deliver (s : State) (v : VmId) (p : Party) (msg : Value) (id : Nat) : ExecM State :=
  if (s.vms v).isOpen = false then s.destroySender ⟨some p.1, p.2, msg, true, id⟩
  else
    match (s.vms v).recvFiber with
    | none =>
        .ok (s.modify v fun m =>
          { m with incoming := m.incoming ++ [⟨some p.1, p.2, msg, false, id⟩] })
    | some f => s.handOver v f p msg id

/-- The addresses whose destructor runs when entry `i` of a `std::deque` of
sender states is erased. The entries of the shorter side move up by assignment,
and assigning an address to an address forgets the old one. -/
def erasedAddresses (q : List SenderState) (i : Nat) : List VmId :=
  let neighbour :=
    if i < q.length / 2 then (if i = 0 then none else q[i - 1]?) else q[i + 1]?
  match q[i]?, neighbour with
  | none, _ => []
  | some ⟨_, _, .address _, _, _⟩, some ⟨_, _, .address _, _, _⟩ => []
  | some e, _ => e.msg.addresses

def interruptSend (s : State) (v u : VmId) (f : FiberId) : State :=
  let q := (s.vms v).incoming
  match q.findIdx? fun e => e.vm == some u && e.fiber == f with
  | none => s
  | some i =>
      let s := (s.modify v fun m => { m with incoming := q.eraseIdx i }).dropAddresses
        (erasedAddresses q i)
      s.post u (.resume (some f) (some .interrupted))

/-- The handler a destructor posts when it took the last address away. -/
def noSenders (s : State) (v : VmId) : ExecM State :=
  if (s.vms v).nsenders ≠ 0 then .ok s
  else
    match (s.vms v).recvFiber with
    | none => .ok s
    | some f =>
        (s.modify v fun m => { m with recvFiber := none }).fiberResume v (some f) (some .noSenders)

def attachService (s : State) (v : VmId) (id : Nat) : State :=
  s.modify v fun m =>
    if m.valid = false then m
    else if m.recvFiber.isSome then
      { m with services := m.services ++ [⟨id, true⟩], waits := m.waits ++ [id] }
    else { m with services := m.services ++ [⟨id, false⟩] }

def runHandler (s : State) (v : VmId) : Handler → ExecM State
  | .deliver p msg id => s.deliver v p msg id
  | .interruptSend u f => .ok (s.interruptSend v u f)
  | .resume fiber error => s.fiberResume v fiber error
  | .noSenders => s.noSenders v
  | .attachService id => .ok (s.attachService v id)

end State

/-- How a wait on a service ended: with an error, or with what `recvmsg` says. -/
inductive WaitEvent (c : Config) where
  | failed
  | again
  | broken
  | packet (r : Received c)

namespace State

def removeService (s : State) (v : VmId) (k : Nat) : State :=
  s.modify v fun m =>
    { m with services := m.services.filter fun x => x.id != k, nsenders := m.nsenders - 1 }

/-- The service is gone; a fiber that waits for it alone is told so. -/
def loseService (s : State) (v : VmId) (k : Nat) : ExecM State :=
  let s := s.removeService v k
  match (s.vms v).recvFiber with
  | none => .ok s
  | some f =>
      if (s.vms v).nsenders = 0 then
        (s.modify v fun m => { m with recvFiber := none }).fiberResume v (some f) (some .noSenders)
      else .ok s

/-- `on_wait` from the point where a packet has been read. -/
def onPacket {c : Config} (s : State) (v : VmId) (k : Nat) (r : Received c) : ExecM State :=
  if r.tooShort then s.loseService v k
  else
    let s := s.modify v fun m =>
      { m with services := m.services.map fun x => if x.id = k then { x with running := false } else x }
    match (s.vms v).recvFiber with
    | none =>
        match queuedDelivery r with
        | .delivered msg _ =>
            .ok (s.modify v fun m => { m with incoming := m.incoming ++ [⟨none, 0, msg, false, 0⟩] })
        | .rejected _ => .ok (s.removeService v k)
        | .outOfBounds => .error .outOfBounds
    | some f =>
        match directDelivery r Heap.empty with
        | .delivered _ _ =>
            (s.modify v fun m => { m with recvFiber := none }).fiberResume v (some f) none
        | .rejected _ =>
            -- the exception leaves `fiber_resume` before the interrupter is cleared
            s.loseService v k
        | .outOfBounds => .error .outOfBounds

/-- `ipc_actor_inbox_op::on_wait`. -/
def onWait {c : Config} (s : State) (v : VmId) (k : Nat) (event : WaitEvent c) : ExecM State :=
  let s := s.modify v fun m => { m with waits := m.waits.erase k }
  let m := s.vms v
  if m.alive = false ∨ m.valid = false then .ok s
  else if k ∉ m.services.map Service.id then .error .danglingService
  else if m.isOpen = false then .ok (s.removeService v k)
  else
    match event with
    | .failed | .broken => s.loseService v k
    | .again => .ok (s.modify v fun m => { m with waits := m.waits ++ [k] })
    | .packet r => s.onPacket v k r

end State

/-! The actions of a process. Those of a running fiber name its VM only. Whether
a call may suspend is decided by state that is not modelled. A VM may expire
when nothing of its own keeps it; a message it has sent could keep it longer. -/

inductive Action (c : Config) where
  | chanSend (v : VmId) (handle : Nat) (msg : Value) (suspendAllowed : Bool)
  | chanReceive (v : VmId) (suspendAllowed : Bool)
  | inboxClose (v : VmId)
  | inboxGc (v : VmId)
  | fiberInterrupt (v : VmId) (g : FiberId)
  | exportAddress (v : VmId) (handle : Nat)
  | exportInbox (v : VmId)
  | dropHandle (v : VmId) (handle : Nat)
  | spawnVm (v : VmId)
  | importInbox (v : VmId)
  | setInterruption (v : VmId) (disabled : Bool)
  | suspendElsewhere (v : VmId)
  | fiberEpilogue (v : VmId) (joiner : Option FiberId)
  | vmClose (v : VmId)
  | resumeElsewhere (v : VmId) (f : FiberId)
  | runHandler (v : VmId)
  | onWait (v : VmId) (k : Nat) (event : WaitEvent c)
  | expire (v : VmId)

/-- Only addresses the VM has, or its own, can be in a message. -/
def Vm.canSend (m : Vm) (v : VmId) (msg : Value) : Prop :=
  ∀ d ∈ msg.addresses, d = v ∨ d ∈ m.addresses.map Prod.snd

instance (m : Vm) (v : VmId) (msg : Value) : Decidable (m.canSend v msg) :=
  inferInstanceAs (Decidable (∀ d ∈ msg.addresses, _))

def exec {c : Config} (s : State) : Action c → ExecM State
  | .chanSend v handle msg suspendAllowed => do
      let f ← s.runningFiber v
      match (s.vms v).addresses.lookup handle with
      | none => .error .disabled
      | some d =>
          if (s.vms v).canSend v msg then
            if suspendAllowed = false ∨ (s.vms d).alive = false then .ok s
            else .ok (s.chanSend v f handle d msg)
          else .error .disabled
  | .chanReceive v suspendAllowed => do
      let f ← s.runningFiber v
      if (s.vms v).imported = false then .error .disabled
      else if suspendAllowed = false then .ok s
      else .ok (s.chanReceive v f)
  | .inboxClose v => do
      let _ ← s.runningFiber v
      if (s.vms v).imported = false then .error .disabled else s.inboxClose v
  | .inboxGc v => do
      let _ ← s.runningFiber v
      if ((s.vms v).fibers 0).suspension = .finished ∧ (s.vms v).recvFiber = none then s.inboxGc v
      else .error .disabled
  | .fiberInterrupt v g => do
      let f ← s.runningFiber v
      if g = f then .ok s else s.fiberInterrupt v g
  | .exportAddress v handle => do
      let _ ← s.runningFiber v
      match (s.vms v).addresses.lookup handle with
      | none => .error .disabled
      | some d => .ok (s.exportAddress d)
  | .exportInbox v => do
      let _ ← s.runningFiber v
      if (s.vms v).imported = false then .error .disabled else .ok (s.exportInbox v)
  | .dropHandle v handle => do
      let _ ← s.runningFiber v
      match (s.vms v).addresses.lookup handle with
      | none => .error .disabled
      | some d =>
          .ok ((s.modify v fun m => { m with addresses := m.addresses.erase (handle, d) }).dropAddress d)
  | .spawnVm v => do
      let _ ← s.runningFiber v
      .ok (s.spawnVm v)
  | .importInbox v => do
      let _ ← s.runningFiber v
      .ok (s.modify v fun m => { m with imported := true })
  | .setInterruption v disabled => do
      let f ← s.runningFiber v
      .ok (s.modify v fun m => m.setFiber f fun g => { g with interruptionDisabled := disabled })
  | .suspendElsewhere v => do
      let f ← s.runningFiber v
      .ok ((s.modify v fun m => m.setFiber f fun g => { g with suspension := .elsewhere }).yield v)
  | .fiberEpilogue v joiner => do
      let f ← s.runningFiber v
      s.fiberEpilogue v f joiner
  | .vmClose v => do
      let _ ← s.runningFiber v
      s.vmClose v
  | .resumeElsewhere v f =>
      if (s.vms v).valid ∧ (s.vms v).current = none ∧ ((s.vms v).fibers f).suspension = .elsewhere then
        .ok (s.modify v (Vm.resumed · f))
      else .error .disabled
  | .runHandler v =>
      match (s.vms v).current, (s.vms v).strand with
      | none, h :: hs => (s.modify v fun m => { m with strand := hs }).runHandler v h
      | _, _ => .error .disabled
  | .onWait v k event =>
      if (s.vms v).current = none ∧ k ∈ (s.vms v).waits then s.onWait v k event
      else .error .disabled
  | .expire v =>
      if (s.vms v).alive ∧ (s.vms v).current = none ∧ (s.vms v).strand = [] ∧
          (s.vms v).recvFiber = none then
        (s.modify v fun m => { m with alive := false }).destroyVm v
      else .error .disabled

/-- A process starts with one VM; that of a child process has a service for the
inbox its parent writes to. -/
def State.initial (child : Bool) : State where
  vms := fun v =>
    if v = 0 then
      if child then { Vm.fresh 1 with services := [⟨0, false⟩] } else Vm.fresh 0
    else Vm.absent
  vmCount := 1
  fresh := 1
  hist := ⟨[], [], [], []⟩

def Step (c : Config) (s : State) (a : Action c) (s' : State) : Prop := exec s a = .ok s'

def Initial (s : State) : Prop := ∃ child, s = State.initial child

/-- The actions one after the other, as long as each of them meets `ok`. -/
def runIf {c : Config} (ok : State → Action c → Bool) (s : State) : List (Action c) → Option State
  | [] => some s
  | a :: as =>
      if ok s a then
        match exec s a with
        | .ok s' => runIf ok s' as
        | .error _ => none
      else none

end Emilua.Actor
