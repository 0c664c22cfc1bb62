import Emilua.Lib.Transition
import Mathlib.Data.List.ReduceOption

/-!
Descriptors in the handles of a VM, in pending `send_with_fds` operations and on
their way in through `receive_with_fds`, for the three classes of UNIX sockets.

A descriptor is named by when the process obtained it, not by its number, which
the kernel uses again once it has been closed. A handle whose memory the
collector has freed keeps its place in the list; what a later write through an
old reference to it hits is no handle of this list.
-/
namespace Emilua.Unix

abbrev Descriptor := Nat

/-- The address of a `file_descriptor_handle`. -/
abbrev Ref := Nat

/-- A `file_descriptor_handle`; `live none` holds `INVALID_FILE_DESCRIPTOR`.
`close` takes its metatable. -/
inductive Handle where
  | live (fd : Option Descriptor)
  | closed
  | collected
deriving DecidableEq, Repr

inductive CallError where
  | suspension
  | invalidArgument (arg : Nat)
  | deviceOrResourceBusy
  | system (errno : Nat)
deriving DecidableEq, Repr

/-- The arguments both families check before they look at descriptors. -/
structure CallArgs where
  suspendAllowed : Bool
  sock : Bool
  buffer : Bool
deriving DecidableEq, Repr

def CallArgs.check (args : CallArgs) : Except CallError Unit :=
  if args.suspendAllowed = false then .error .suspension
  else if args.sock = false then .error (.invalidArgument 1)
  else if args.buffer = false then .error (.invalidArgument 2)
  else .ok ()

/-! Sending. -/

/-- `send_with_fds_op::file_descriptor_lock`. -/
structure Lock where
  reference : Ref
  value : Descriptor
deriving DecidableEq, Repr

/-- An element of the list of handles: no userdata, a userdata without or with
another metatable, or a handle. -/
inductive Element where
  | value
  | bare
  | foreign
  | handle (ref : Ref)
deriving DecidableEq, Repr

/-- The loop over the list. A handle that occurs again is passed over. -/
def collect (arg : Nat) (handles : List Handle) :
    List Lock → List Element → Except CallError (List Lock)
  | fds, [] => .ok fds
  | _, .value :: _ | _, .bare :: _ => .error (.invalidArgument arg)
  | _, .foreign :: _ => .error (.invalidArgument 1)
  | fds, .handle ref :: rest =>
      match handles[ref]? with
      | some (.live (some fd)) =>
          if fds.any fun lock => lock.reference == ref then collect arg handles fds rest
          else collect arg handles (fds ++ [⟨ref, fd⟩]) rest
      | some (.live none) => .error .deviceOrResourceBusy
      | _ => .error (.invalidArgument arg)

/-- `*reference = fd`. -/
def store (handles : List Handle) (ref : Ref) (fd : Option Descriptor) : List Handle :=
  match handles[ref]? with
  | some (.live _) => handles.set ref (.live fd)
  | _ => handles

/-- `for (auto& fdlock: op->fds) *fdlock.reference = INVALID_FILE_DESCRIPTOR`. -/
def takeAll : List Lock → List Handle → List Handle
  | [], handles => handles
  | lock :: fds, handles => takeAll fds (store handles lock.reference none)

/-- `for (auto& fdlock: fds) *fdlock.reference = fdlock.value`. -/
def giveBack : List Lock → List Handle → List Handle
  | [], handles => handles
  | lock :: fds, handles => giveBack fds (store handles lock.reference (some lock.value))

/-- A pending send, with the list it was called with and the handles as they
were then. -/
structure SendOp where
  fds : List Lock
  listed : List Element
  before : List Handle
deriving DecidableEq, Repr

inductive SendWake where
  | aborted (code : Nat)
  | again
  | failed (errno : Nat)
  | sent
deriving DecidableEq, Repr

/-! Receiving. -/

def scmMaxFd : Nat := 255

/-- A pending receive; `requested` is the argument before it is clamped. -/
structure ReceiveOp where
  skipEofDetection : Bool
  maxfds : Nat
  requested : Int
deriving DecidableEq, Repr

inductive Control where
  | rights (fds : List (Option Descriptor))
  | other
deriving DecidableEq, Repr

inductive ReceiveWake where
  | aborted (code : Nat)
  | again
  | failed (errno : Nat)
  | message (nread : Nat) (controls : List Control)
deriving DecidableEq, Repr

/-- The descriptors of a packet, in the order they arrive. -/
def received : List Control → List Descriptor
  | [] => []
  | .other :: controls => received controls
  | .rights fds :: controls => fds.reduceOption ++ received controls

/-- `fds_pusher`: the descriptors it moves into handles, and those it leaves. -/
def fdsPusher (maxfds : Nat) : Nat → List Descriptor → List Descriptor × List Descriptor
  | _, [] => ([], [])
  | i, fd :: fds =>
      if i + 1 = maxfds then ([fd], fds)
      else
        let (pushed, left) := fdsPusher maxfds (i + 1) fds
        (fd :: pushed, left)

/-! The VM. -/

/-- A send that has ended while the VM lives. -/
structure SendEnd where
  listed : List Element
  before : List Handle
  after : List Handle

/-- A packet that has arrived: the handles made for it and what it closed. -/
structure Delivery where
  requested : Int
  arrived : List Descriptor
  handles : List Handle
  dropped : List Descriptor

structure State where
  valid : Bool
  handles : List Handle
  sends : List SendOp
  receives : List ReceiveOp
  closed : List Descriptor
  next : Descriptor
  ended : List SendEnd
  deliveries : List Delivery

def State.initial : State := ⟨true, [], [], [], [], 0, [], []⟩

/-- Why an action does not happen: the call raises, or nothing of the kind is
pending or possible. -/
inductive Stop where
  | raised (e : CallError)
  | impossible
deriving DecidableEq, Repr

/-- Send operations of datagram sockets with an address take the list as the
fourth argument, after the path. -/
def sendFds (st : State) (args : CallArgs) (path : Option Bool) (list : List Element) :
    Except CallError State := do
  args.check
  if path = some false then .error (.invalidArgument 3)
  else
    let fds ← collect (if path = none then 3 else 4) st.handles [] list
    .ok { st with
      handles := takeAll fds st.handles
      sends := st.sends ++ [⟨fds, list, st.handles⟩] }

def sendWithFds (st : State) (args : CallArgs) (list : List Element) : Except CallError State :=
  sendFds st args none list

def sendToWithFds (st : State) (args : CallArgs) (path : Bool) (list : List Element) :
    Except CallError State :=
  sendFds st args (some path) list

/-- `send_with_fds_op::on_wait`. -/
def sendOnWait (st : State) (i : Nat) (op : SendOp) (wake : SendWake) : State :=
  if st.valid = false then
    { st with sends := st.sends.eraseIdx i, closed := st.closed ++ op.fds.map Lock.value }
  else
    match wake with
    | .again => st
    | .aborted _ | .failed _ | .sent =>
        { st with
          handles := giveBack op.fds st.handles
          sends := st.sends.eraseIdx i
          ended := st.ended ++ [⟨op.listed, op.before, giveBack op.fds st.handles⟩] }

def receiveFds (skipEofDetection : Bool) (st : State) (args : CallArgs) (maxfds : Int) :
    Except CallError State := do
  args.check
  if maxfds < 1 then .error (.invalidArgument 3)
  else
    let clamped := if maxfds > scmMaxFd then scmMaxFd else maxfds.toNat
    .ok { st with receives := st.receives ++ [⟨skipEofDetection, clamped, maxfds⟩] }

/-- Datagram sockets, with or without the address of the sender. -/
def datagramReceiveWithFds : State → CallArgs → Int → Except CallError State := receiveFds true

def streamReceiveWithFds : State → CallArgs → Int → Except CallError State := receiveFds false

def seqpacketReceiveWithFds : State → CallArgs → Int → Except CallError State := receiveFds false

/-- `receive_with_fds_op::on_wait`. What `fds_pusher` leaves, and everything at
the end of a stream, is closed by the scope guard. -/
def receiveOnWait (st : State) (i : Nat) (op : ReceiveOp) (wake : ReceiveWake) : State :=
  if st.valid = false then { st with receives := st.receives.eraseIdx i }
  else
    match wake with
    | .again => st
    | .aborted _ | .failed _ => { st with receives := st.receives.eraseIdx i }
    | .message nread controls =>
        let fds := received controls
        let (pushed, left) :=
          if op.skipEofDetection = false ∧ nread = 0 then ([], fds) else fdsPusher op.maxfds 0 fds
        let handles := pushed.map fun fd => Handle.live (some fd)
        { st with
          receives := st.receives.eraseIdx i
          handles := st.handles ++ handles
          closed := st.closed ++ left
          next := st.next + fds.length
          deliveries := st.deliveries ++ [⟨op.requested, fds, handles, left⟩] }

/-- `file_descriptor_close`. -/
def fileDescriptorClose (st : State) (ref : Ref) : Except CallError State :=
  match st.handles[ref]? with
  | some (.live (some fd)) =>
      .ok { st with handles := st.handles.set ref .closed, closed := st.closed ++ [fd] }
  | some (.live none) => .error .deviceOrResourceBusy
  | _ => .error (.invalidArgument 1)

/-- `file_descriptor_dup`; the system may refuse. -/
def fileDescriptorDup (st : State) (ref : Ref) (refusal : Option Nat) : Except CallError State :=
  match st.handles[ref]? with
  | some (.live (some _)) =>
      match refusal with
      | some errno => .error (.system errno)
      | none =>
          .ok { st with handles := st.handles ++ [.live (some st.next)], next := st.next + 1 }
  | some (.live none) => .error .deviceOrResourceBusy
  | _ => .error (.invalidArgument 1)

/-- What a handle still holds when it is finalised. -/
def Handle.holds : Handle → List Descriptor
  | .live (some fd) => [fd]
  | .live none | .closed | .collected => []

/-- `file_descriptor_mt_gc`, and the memory is freed. -/
def fileDescriptorGc (st : State) (ref : Ref) : Except Stop State :=
  match st.handles[ref]? with
  | some .collected | none => .error .impossible
  | some handle =>
      .ok { st with handles := st.handles.set ref .collected, closed := st.closed ++ handle.holds }

/-- `lua_close` finalises every handle. -/
def vmClose (st : State) : State :=
  { st with
    valid := false
    handles := st.handles.map fun _ => .collected
    closed := st.closed ++ st.handles.flatMap Handle.holds }

inductive Action where
  /-- A handle is made elsewhere, for a descriptor the process has just opened. -/
  | adopt
  | sendWithFds (args : CallArgs) (list : List Element)
  | sendToWithFds (args : CallArgs) (path : Bool) (list : List Element)
  | sendWake (i : Nat) (wake : SendWake)
  | datagramReceiveWithFds (args : CallArgs) (maxfds : Int)
  | streamReceiveWithFds (args : CallArgs) (maxfds : Int)
  | seqpacketReceiveWithFds (args : CallArgs) (maxfds : Int)
  | receiveWake (i : Nat) (wake : ReceiveWake)
  | close (ref : Ref)
  | dup (ref : Ref) (refusal : Option Nat)
  | gc (ref : Ref)
  | vmClose
deriving DecidableEq, Repr

/-- A call of the program, which needs a VM. -/
def State.call (st : State) (r : Except CallError State) : Except Stop State :=
  if st.valid = false then .error .impossible
  else r.mapError .raised

/-- The kernel installs the descriptors of a packet under new names. -/
def ReceiveWake.possible (wake : ReceiveWake) (next : Descriptor) : Bool :=
  match wake with
  | .message _ controls => received controls == List.range' next (received controls).length
  | .aborted _ | .again | .failed _ => true

def exec (st : State) : Action → Except Stop State
  | .adopt => st.call
      (.ok { st with handles := st.handles ++ [.live (some st.next)], next := st.next + 1 })
  | .sendWithFds args list => st.call (sendWithFds st args list)
  | .sendToWithFds args path list => st.call (sendToWithFds st args path list)
  | .sendWake i wake =>
      match st.sends[i]? with
      | some op => .ok (sendOnWait st i op wake)
      | none => .error .impossible
  | .datagramReceiveWithFds args maxfds => st.call (datagramReceiveWithFds st args maxfds)
  | .streamReceiveWithFds args maxfds => st.call (streamReceiveWithFds st args maxfds)
  | .seqpacketReceiveWithFds args maxfds => st.call (seqpacketReceiveWithFds st args maxfds)
  | .receiveWake i wake =>
      match st.receives[i]? with
      | some op =>
          if wake.possible st.next then .ok (receiveOnWait st i op wake) else .error .impossible
      | none => .error .impossible
  | .close ref => st.call (fileDescriptorClose st ref)
  | .dup ref refusal => st.call (fileDescriptorDup st ref refusal)
  | .gc ref => if st.valid = false then .error .impossible else fileDescriptorGc st ref
  | .vmClose => if st.valid = false then .error .impossible else .ok (vmClose st)

abbrev Step (s : State) (a : Action) (s' : State) : Prop := exec s a = .ok s'

end Emilua.Unix
