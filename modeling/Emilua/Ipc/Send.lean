import Emilua.Ipc.Format

/-!
`ipc_actor_chan_send` up to the start of the write operation, and the packet
`ipc_actor_send_op::on_wait` hands to `sendmsg`.

The operation object is allocated without initialising its message, so the
model starts from memory in which no byte has been stored and from an
indeterminate `message_size`. `socketpair` belongs to the system: its `k`-th
call answers a pair of descriptors or an error number.
-/
namespace Emilua.Ipc
open Wire

/-- What a call raises in the calling fiber. `overrun` is not an error of the
source: it marks a store behind the end of an array. -/
inductive SendError where
  | suspension
  | invalidArgument (arg : Nat)
  | channelClosed
  | deviceOrResourceBusy
  | system (errno : Nat)
  | overrun
deriving DecidableEq, Repr

/-- `ipc_actor_send_op::file_descriptor_lock`: a handle of the message by
reference, or a descriptor of the operation itself. -/
structure FdLock where
  reference : Option Nat
  value : Int
deriving DecidableEq, Repr

/-- A lock is stored by the field it sets. -/
def FdLock.store (lock slot : FdLock) : FdLock :=
  match lock.reference with
  | some ref => { slot with reference := some ref }
  | none => { slot with value := lock.value }

inductive ExportTarget where
  | address (dest : Option VmId)
  | ownInbox
deriving DecidableEq, Repr

/-- A socket pair made for a channel of the message: the receiving end goes to
an inbox service (or is closed when the VM is gone), the peer end is sent. -/
structure Export where
  inboxfd : Int
  peer : Int
  target : ExportTarget
deriving DecidableEq, Repr

/-- `ipc_actor_send_op` while the message is encoded, with the encoder's write
position in the string pool (from the start of the message) and the socket
pairs made so far. -/
structure SendState where
  message : Memory
  messageSize : Option Nat
  descriptors : List FdLock
  descriptorsSize : UInt8
  strit : Nat
  exports : List Export

abbrev SendM := Except (SendError × SendState)

@[simp] theorem sendM_ok_bind {α β : Type} (a : α) (f : α → SendM β) :
    ((.ok a : SendM α) >>= f) = f a := rfl

@[simp] theorem sendM_error_bind {α β : Type} (e : SendError × SendState) (f : α → SendM β) :
    ((.error e : SendM α) >>= f) = .error e := rfl

def SendState.initial (c : Config) : SendState where
  message := List.replicate c.messageSize none
  messageSize := none
  descriptors := List.replicate c.maxMembers ⟨none, -1⟩
  descriptorsSize := 0
  strit := c.membersSize
  exports := []

section Encoder
variable (c : Config) (socketpair : Nat → Except Nat (Int × Int))

/-- `message.members[i].as_int = w`. -/
def writeMember (st : SendState) (i : Nat) (w : UInt64) : SendM SendState :=
  if i < c.maxMembers then
    match st.message.write (8 * i) (wordBytes w) with
    | some mem => .ok { st with message := mem }
    | none => .error (.overrun, st)
  else .error (.overrun, st)

/-- `*strit++ = v.size(); memcpy(strit, v.data(), v.size()); strit += v.size()`. -/
def pushString (st : SendState) (s : Bytes) : SendM SendState :=
  match st.message.write st.strit (frame s) with
  | some mem => .ok { st with message := mem, strit := st.strit + (frame s).length }
  | none => .error (.overrun, st)

/-- `descriptors[descriptors_size++].reference = msg`, or `.value = channel[1]`,
with the counter's own width. The other field of the slot stays as it is. -/
def pushDescriptor (st : SendState) (lock : FdLock) : SendM SendState :=
  if st.descriptorsSize.toNat < st.descriptors.length then
    .ok { st with
      descriptors := st.descriptors.modify st.descriptorsSize.toNat (FdLock.store lock)
      descriptorsSize := st.descriptorsSize + 1 }
  else .error (.overrun, st)

/-- A channel of the message is replaced by the sending end of a new socket. -/
def exportChannel (st : SendState) (target : ExportTarget) : SendM (SendState × Int) :=
  match socketpair st.exports.length with
  | .error errno => .error (.system errno, st)
  | .ok (inboxfd, peer) =>
      .ok ({ st with exports := st.exports ++ [⟨inboxfd, peer, target⟩] }, peer)

/-- `members[0]` marks a sole value, which is `members[1]`. -/
def writeFlat (st : SendState) (w : UInt64) : SendM SendState := do
  let st ← writeMember c st 0 Kind.nil.word
  let st ← writeMember c st 1 w
  .ok { st with messageSize := some (8 * 2) }

def booleanWord (b : Bool) : UInt64 :=
  if b then Kind.booleanTrue.word else Kind.booleanFalse.word

/-- `memset(&members[2], 0, ...)`. -/
def clearMembers (st : SendState) : SendM SendState :=
  match st.message.write (8 * 2) (List.replicate (8 * (c.maxMembers - 2)) 0) with
  | some mem => .ok { st with message := mem }
  | none => .error (.overrun, st)

def encodeFlatString (st : SendState) (s : Bytes) : SendM SendState := do
  if s.length > 255 then .error (.invalidArgument 2, st)
  else
    let st ← writeMember c st 0 Kind.nil.word
    let st ← writeMember c st 1 Kind.string.word
    let st ← pushString st s
    let st ← clearMembers c st
    .ok { st with messageSize := some st.strit }

def encodeFlatUserdata (st : SendState) (ref : Nat) : Option Userdata → SendM SendState
  | some (.txChan dest) => do
      let (st, peer) ← exportChannel socketpair st (.address dest)
      let st ← writeFlat c st Kind.actorAddress.word
      pushDescriptor st ⟨none, peer⟩
  | some .inbox => do
      let (st, peer) ← exportChannel socketpair st .ownInbox
      let st ← writeFlat c st Kind.actorAddress.word
      pushDescriptor st ⟨none, peer⟩
  | some (.fileDescriptor fd) =>
      if fd = -1 then .error (.deviceOrResourceBusy, st)
      else do
        let st ← writeFlat c st Kind.fileDescriptor.word
        pushDescriptor st ⟨some ref, -1⟩
  | _ => .error (.invalidArgument 2, st)

/-- The `switch` on the type of a table's value. -/
def encodeMember (h : Heap) (st : SendState) (nf : Nat) : LuaVal → SendM SendState
  | .boolean b => writeMember c st nf (booleanWord b)
  | .number bits => writeMember c st nf bits
  | .string s => do
      if s.length > 255 then .error (.invalidArgument 2, st)
      else
        let st ← writeMember c st nf Kind.string.word
        pushString st s
  | .userdata ref =>
      match h.userdata[ref]? with
      | some (.txChan dest) => do
          let (st, peer) ← exportChannel socketpair st (.address dest)
          let st ← writeMember c st nf Kind.actorAddress.word
          pushDescriptor st ⟨none, peer⟩
      | some .inbox => do
          let (st, peer) ← exportChannel socketpair st .ownInbox
          let st ← writeMember c st nf Kind.actorAddress.word
          pushDescriptor st ⟨none, peer⟩
      | some (.fileDescriptor fd) =>
          if fd = -1 then .error (.deviceOrResourceBusy, st)
          else do
            let st ← writeMember c st nf Kind.fileDescriptor.word
            pushDescriptor st ⟨some ref, -1⟩
      | _ => .error (.invalidArgument 2, st)
  | _ => .error (.invalidArgument 2, st)

/-- The `lua_next` loop; keys that are not strings are passed over. -/
def encodeFields (h : Heap) : SendState → Nat → List (Σ _ : LuaVal, LuaVal) →
    SendM (SendState × Nat)
  | st, nf, [] => .ok (st, nf)
  | st, nf, ⟨.string key, value⟩ :: rest =>
      if nf = c.maxMembers then .error (.invalidArgument 2, st)
      else if key.length > 255 then .error (.invalidArgument 2, st)
      else do
        let st ← pushString st key
        let st ← encodeMember c socketpair h st nf value
        encodeFields h st (nf + 1) rest
  | st, nf, _ :: rest => encodeFields h st nf rest

/-- Members behind the last one are all marked nil, from `i` on. -/
def padMembers : Nat → SendState → Nat → SendM SendState
  | 0, st, _ => .ok st
  | n + 1, st, i => do
      let st ← writeMember c st i Kind.nil.word
      padMembers n st (i + 1)

def encodeTable (h : Heap) (st : SendState) : Option LuaTable → SendM SendState
  | none => .error (.invalidArgument 2, st)
  | some t => do
      if t.metatable then .error (.invalidArgument 2, st)
      else
        let (st, nf) ← encodeFields c socketpair h st 0 t.fields.entries
        if nf = 0 then .error (.invalidArgument 2, st)
        else
          let st ← padMembers c (c.maxMembers - nf) st nf
          .ok { st with messageSize := some st.strit }

/-- The outer `switch` on the type of the message. It has no `default` label. -/
def encode (h : Heap) (st : SendState) : LuaVal → SendM SendState
  | .nil | .function _ | .thread _ | .lightuserdata _ => .error (.invalidArgument 2, st)
  | .boolean b => writeFlat c st (booleanWord b)
  | .number bits => writeFlat c st bits
  | .string s => encodeFlatString c st s
  | .userdata ref => encodeFlatUserdata c socketpair st ref h.userdata[ref]?
  | .table ref => encodeTable c socketpair h st h.tables[ref]?
  | .cdata _ => .ok st

/-- The last loop before the operation starts: every handle of the message is
emptied and its descriptor kept in the operation. -/
def acquire (h : Heap) : List FdLock → List FdLock × Heap
  | [] => ([], h)
  | lock :: rest =>
      match lock.reference with
      | none =>
          let (rest, h) := acquire h rest
          (lock :: rest, h)
      | some ref =>
          match h.userdata[ref]? with
          | some (.fileDescriptor fd) =>
              let (rest, h) :=
                acquire { h with userdata := h.userdata.set ref (.fileDescriptor (-1)) } rest
              (⟨some ref, fd⟩ :: rest, h)
          | _ =>
              let (rest, h) := acquire h rest
              (lock :: rest, h)

/-- A started operation: the encoded message and the descriptors it holds. -/
structure SendOp where
  message : Memory
  messageSize : Option Nat
  descriptors : List FdLock
  exports : List Export

def ipcActorChanSend (suspendAllowed : Bool) (h : Heap) (channel msg : LuaVal) :
    Except (SendError × SendState) (SendOp × Heap) := do
  let st := SendState.initial c
  if suspendAllowed = false then .error (.suspension, st)
  else
    match channel with
    | .userdata ref =>
        match h.userdata[ref]? with
        | some (.ipcActorChan fd) =>
            if fd = -1 then .error (.channelClosed, st)
            else
              let st ← encode c socketpair h st msg
              let (locks, h) := acquire h (st.descriptors.take st.descriptorsSize.toNat)
              .ok (⟨st.message, st.messageSize, locks, st.exports⟩, h)
        | _ => .error (.invalidArgument 1, st)
    | _ => .error (.invalidArgument 1, st)

end Encoder

/-- What `on_wait` passes to `sendmsg`: the first `message_size` bytes of the
message and the values of the descriptors. Bytes no one has stored show up as
whatever the allocation held, here `junk`. -/
def SendOp.payload (op : SendOp) (junk : Nat → UInt8) : Option Bytes :=
  op.messageSize.map fun size =>
    (List.range size).map fun i => ((op.message[i]?).join).getD (junk i)

def SendOp.fds (op : SendOp) : List Int := op.descriptors.map FdLock.value

end Emilua.Ipc
