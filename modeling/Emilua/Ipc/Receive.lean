import Emilua.Lib.Loop
import Emilua.Value
import Emilua.Ipc.Format

/-!
The two decoders of `ipc_actor_inbox_op::on_wait`: one appends to the queue of
an inbox nobody waits on, the other pushes straight to the waiting fiber.

The receive buffer lives on the stack and `recvmsg` fills only its first
`nread` bytes; what follows them is arbitrary. An access outside the buffer is
not a behaviour of the source but would be one of the compiled program, so it
has an outcome of its own here.
-/
namespace Emilua.Ipc
open Wire Loop

/-- A control message is of the kind that carries descriptors, or skipped. -/
inductive ControlMessage where
  | rights (fds : List Int)
  | other
deriving DecidableEq, Repr

structure Received (c : Config) where
  message : Bytes
  length_eq : message.length = c.messageSize
  nread : Nat
  nread_le : nread ≤ c.messageSize
  control : List ControlMessage
  truncated : Bool

/-- A packet that fitted, received into a buffer full of `stale` bytes. -/
def Received.ofWire (c : Config) (wire : Bytes) (h : wire.length ≤ c.messageSize) (stale : UInt8)
    (control : List ControlMessage) : Received c where
  message := wire ++ List.replicate (c.messageSize - wire.length) stale
  length_eq := by simp only [List.length_append, List.length_replicate]; omega
  nread := wire.length
  nread_le := h
  control := control
  truncated := false

inductive Outcome (α : Type) where
  | delivered (msg : α) (closed : List Int)
  | rejected (closed : List Int)
  | outOfBounds

inductive Fetch (α : Type) where
  | value (a : α)
  | invalid
  | outOfBounds

def Fetch.flow {α β σ : Type} (f : Fetch α) (reject : Outcome β)
    (next : α → Flow σ (Outcome β)) : Flow σ (Outcome β) :=
  match f with
  | .value a => next a
  | .invalid => .exit reject
  | .outOfBounds => .exit .outOfBounds

/-- The local `fds` vector with the index of the next descriptor to hand out.
A slot whose descriptor has found an owner is set to -1. -/
structure Descriptors where
  fds : List Int
  fdsidx : Nat

namespace Descriptors

def next (d : Descriptors) : Fetch (Int × Descriptors) :=
  if d.fdsidx = d.fds.length then .invalid
  else
    match d.fds[d.fdsidx]? with
    | some fd => .value (fd, ⟨d.fds.set d.fdsidx (-1), d.fdsidx + 1⟩)
    | none => .outOfBounds

/-- What the scope exit closes. -/
def left (d : Descriptors) : List Int := d.fds.filter (· ≠ -1)

end Descriptors

namespace Received
variable {c : Config} (r : Received c)

/-- The loop over the control messages. -/
def fds : List Int :=
  r.control.flatMap fun
    | .rights fds => fds.filter (· ≠ -1)
    | .other => []

/-- The part of the buffer the peer wrote. -/
def wire : Bytes := r.message.take r.nread

def tooShort : Bool := r.nread < 8 * 2 || r.truncated

/-- `message.members[i].as_int`. -/
def member (i : Nat) : Option UInt64 :=
  if i < c.maxMembers then wordAt r.message i else none

/-- `nextstr` and `boundsvalid`: the length byte is fetched first, then the
string it announces is checked against the received bytes. -/
def nextstr (strit : Nat) : Fetch (Bytes × Nat) :=
  match r.message[strit]? with
  | none => .outOfBounds
  | some size =>
      if strit + 1 + size.toNat ≤ r.nread then
        if strit + 1 + size.toNat ≤ r.message.length then
          .value ((r.message.drop (strit + 1)).take size.toNat, strit + 1 + size.toNat)
        else .outOfBounds
      else .invalid

end Received

section Queued
variable {c : Config} (r : Received c)

/-- The queued message under construction. An `emplace` that finds its key
taken destroys the new value, and with it the descriptor it owns. -/
structure QueuedState where
  dict : List (Bytes × Value)
  strit : Nat
  descriptors : Descriptors
  closed : List Int

def QueuedState.emplace (s : QueuedState) (key : Bytes) (v : Value) : QueuedState :=
  { s with
    dict := Emilua.emplace s.dict key v
    closed := s.closed ++ if (s.dict.lookup key).isSome then v.boxes else [] }

/-- `queue.pop_back()` destroys the message and what it owns. -/
def QueuedState.reject (s : QueuedState) : Outcome Value :=
  .rejected (s.closed ++ (boxesObject s.dict ++ s.descriptors.left))

def queuedFlat : Outcome Value :=
  let reject := Outcome.rejected r.fds
  match r.member 1 with
  | none => .outOfBounds
  | some w =>
      if isSnan w = false then .delivered (.number w) r.fds
      else
        match kindOf w with
        | some .booleanTrue => .delivered (.boolean true) r.fds
        | some .booleanFalse => .delivered (.boolean false) r.fds
        | some .string =>
            match r.nextstr c.membersSize with
            | .value (s, _) => .delivered (.string s) r.fds
            | .invalid => reject
            | .outOfBounds => .outOfBounds
        | some .fileDescriptor =>
            match r.fds with
            | [fd] => .delivered (.fileDescriptor fd) []
            | _ => reject
        | some .actorAddress =>
            match r.fds with
            | [fd] => .delivered (.ipcActorAddress fd) []
            | _ => reject
        | some .nil | none => reject

def queuedMember (nf : Nat) (s : QueuedState) : Flow QueuedState (Outcome Value) :=
  match r.member nf with
  | none => .exit .outOfBounds
  | some w =>
      if w = Kind.nil.word then .stop s
      else
        (r.nextstr s.strit).flow s.reject fun (key, strit) =>
          let s := { s with strit := strit }
          if isSnan w = false then .next (s.emplace key (.number w))
          else
            match kindOf w with
            | some .booleanTrue => .next (s.emplace key (.boolean true))
            | some .booleanFalse => .next (s.emplace key (.boolean false))
            | some .string =>
                (r.nextstr s.strit).flow s.reject fun (value, strit) =>
                  .next ({ s with strit := strit }.emplace key (.string value))
            | some .fileDescriptor =>
                s.descriptors.next.flow s.reject fun (fd, ds) =>
                  .next ({ s with descriptors := ds }.emplace key (.fileDescriptor fd))
            | some .actorAddress =>
                s.descriptors.next.flow s.reject fun (fd, ds) =>
                  .next ({ s with descriptors := ds }.emplace key (.ipcActorAddress fd))
            | some .nil | none => .exit s.reject

def queuedDelivery : Outcome Value :=
  match r.member 0 with
  | none => .outOfBounds
  | some w =>
      if w = Kind.nil.word then queuedFlat r
      else if r.nread < c.membersSize then .rejected r.fds
      else
        match run (queuedMember r) c.maxMembers 0 ⟨[], c.membersSize, ⟨r.fds, 0⟩, []⟩ with
        | .ok s => .delivered (.object s.dict) (s.closed ++ s.descriptors.left)
        | .error e => e

end Queued

/-! On the direct path every descriptor is owned by a userdata as soon as it
leaves the vector. A userdata that the received value does not lead to is
garbage, and its `__gc` metamethod closes the descriptor. -/

def Userdata.descriptor : Userdata → List Int
  | .fileDescriptor fd | .ipcActorChan fd => [fd]
  | _ => []

/-- The descriptors of the userdata from `base` on that satisfy `p`. -/
def descriptorsFrom (h : Heap) (base : Nat) (p : Nat → Bool) : List Int :=
  ((List.range' base (h.userdata.length - base)).filter p).flatMap fun ref =>
    (h.userdata[ref]?).elim [] Userdata.descriptor

def leadsTo (h : Heap) (v : LuaVal) (ref : Nat) : Bool :=
  match v with
  | .userdata ref' => ref' == ref
  | .table t => (h.tables[t]?).any fun t => t.fields.entries.any fun e => e.2 == .userdata ref
  | _ => false

section Direct
variable {c : Config} (r : Received c) (base : Nat)

structure DirectState where
  heap : Heap
  strit : Nat
  descriptors : Descriptors

/-- `throw bad_message_t{}`: `fiber_resume` clears the fiber's stack. -/
def DirectState.badMessage (s : DirectState) : Outcome (LuaVal × Heap) :=
  .rejected (descriptorsFrom s.heap base (fun _ => true) ++ s.descriptors.left)

def directDone (v : LuaVal) (h : Heap) (left : List Int) : Outcome (LuaVal × Heap) :=
  .delivered (v, h) (descriptorsFrom h base (fun ref => !leadsTo h v ref) ++ left)

def DirectState.rawset (s : DirectState) (t : Nat) (key : Bytes) (v : LuaVal × Heap) :
    DirectState :=
  { s with heap := v.2.rawset t (.string key) v.1 }

def directFlat (h : Heap) : Outcome (LuaVal × Heap) :=
  let badMessage := Outcome.rejected r.fds
  match r.member 1 with
  | none => .outOfBounds
  | some w =>
      if isSnan w = false then directDone base (.number w) h r.fds
      else
        match kindOf w with
        | some .booleanTrue => directDone base (.boolean true) h r.fds
        | some .booleanFalse => directDone base (.boolean false) h r.fds
        | some .string =>
            match r.nextstr c.membersSize with
            | .value (s, _) => directDone base (.string s) h r.fds
            | .invalid => badMessage
            | .outOfBounds => .outOfBounds
        | some .fileDescriptor =>
            match r.fds with
            | [fd] =>
                let (v, h) := h.newuserdata (.fileDescriptor fd)
                directDone base v h []
            | _ => badMessage
        | some .actorAddress =>
            match r.fds with
            | [fd] =>
                let (v, h) := h.newuserdata (.ipcActorChan fd)
                directDone base v h []
            | _ => badMessage
        | some .nil | none => badMessage

def directMember (t : Nat) (nf : Nat) (s : DirectState) :
    Flow DirectState (Outcome (LuaVal × Heap)) :=
  match r.member nf with
  | none => .exit .outOfBounds
  | some w =>
      if w = Kind.nil.word then .stop s
      else
        (r.nextstr s.strit).flow (s.badMessage base) fun (key, strit) =>
          let s := { s with strit := strit }
          if isSnan w = false then .next (s.rawset t key (.number w, s.heap))
          else
            match kindOf w with
            | some .booleanTrue => .next (s.rawset t key (.boolean true, s.heap))
            | some .booleanFalse => .next (s.rawset t key (.boolean false, s.heap))
            | some .string =>
                (r.nextstr s.strit).flow (s.badMessage base) fun (value, strit) =>
                  .next ({ s with strit := strit }.rawset t key (.string value, s.heap))
            | some .fileDescriptor =>
                s.descriptors.next.flow (s.badMessage base) fun (fd, ds) =>
                  .next ({ s with descriptors := ds }.rawset t key
                    (s.heap.newuserdata (.fileDescriptor fd)))
            | some .actorAddress =>
                s.descriptors.next.flow (s.badMessage base) fun (fd, ds) =>
                  .next ({ s with descriptors := ds }.rawset t key
                    (s.heap.newuserdata (.ipcActorChan fd)))
            | some .nil | none => .exit (s.badMessage base)

/-- The `deserializer` closure, run in the heap of the receiving VM. -/
def directDelivery (h : Heap) : Outcome (LuaVal × Heap) :=
  let base := h.userdata.length
  match r.member 0 with
  | none => .outOfBounds
  | some w =>
      if w = Kind.nil.word then directFlat r base h
      else if r.nread < c.membersSize then .rejected r.fds
      else
        match run (directMember r base h.tables.length) c.maxMembers 0
            ⟨h.newtable.2, c.membersSize, ⟨r.fds, 0⟩⟩ with
        | .ok s => directDone base h.newtable.1 s.heap s.descriptors.left
        | .error e => e

end Direct

/-! A packet that is too short, or did not fit, is dropped before either. -/

def receiveQueued {c : Config} (r : Received c) : Outcome Value :=
  if r.tooShort then .rejected r.fds else queuedDelivery r

def receiveDirect {c : Config} (r : Received c) (h : Heap) : Outcome (LuaVal × Heap) :=
  if r.tooShort then .rejected r.fds else directDelivery r h

end Emilua.Ipc
