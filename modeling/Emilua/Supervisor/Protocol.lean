import Emilua.Lib.FdPassing
import Emilua.Lib.Wire
import Mathlib.Data.List.TakeWhile

/-!
The messages to the supervisor, the process that all subprocess actors are children
of. A message asks for a new process, or has the supervisor call what the sender
has just called itself. What does not fit a message is in a memory file that is
passed along.
-/
namespace Emilua.Supervisor
open Wire

/-- What a descriptor refers to: a stream that the program was started with, the
supervisor's end of its socket, a file of an actor, a memory file, an end of an
actor's channel, of the pipe on which a reply is awaited or of a pipe that a child
makes for a stream, or a process. -/
inductive File where
  | standard (stream : Nat)
  | service
  | given (id : Nat)
  | memory (content : Bytes)
  | channel (id : Nat) (kept : Bool)
  | reply (id : Nat)
  | pipe (stream : Nat) (write : Bool)
  | process (pid : Nat)
deriving DecidableEq, Repr

/-- `ipc_actor_start_vm_request::action` -/
inductive Action where
  | closeFd
  | shareParent
  | usePipe
deriving DecidableEq, Repr

/-- The fields of `ipc_actor_start_vm_request` for `CREATE_PROCESS`. -/
structure CreateProcess where
  cloneFlags : Nat
  stdinAction : Action
  stdoutAction : Action
  stderrAction : Action
  stderrHasColor : Bool
  hasLuaHook : Bool
deriving DecidableEq, Repr

/-- The calls that the supervisor repeats, with capabilities of type `C`. -/
inductive Op (C : Type) where
  | setresuid (ruid euid suid : UInt32)
  | setresgid (rgid egid sgid : UInt32)
  | setgroups (groups : List UInt32)
  | capSetProc (caps : C)
  | capDropBound (cap : Nat)
  | capSetAmbient (cap : Nat) (value : Bool)
  | capResetAmbient
  | capSetSecbits (bits : UInt32)
  | chdir (path : Bytes)
  | umask (mask : UInt32)
deriving DecidableEq, Repr

/-- The other types of `ipc_actor_start_vm_request`, each with its fields. -/
inductive SetRequest where
  | setresuid (ruid euid suid : UInt32)
  | setresgid (rgid egid sgid : UInt32)
  | setgroups (ngroups : Nat)
  | capSetProc (mfdSize : Nat)
  | capDropBound (cap : Nat)
  | capSetAmbient (cap : Nat) (value : Bool)
  | capResetAmbient
  | capSetSecbits (bits : UInt32)
  | chdir (mfdSize : Nat)
  | umask (mask : UInt32)
deriving DecidableEq, Repr

inductive Request where
  | createProcess (r : CreateProcess)
  | set (r : SetRequest)
deriving DecidableEq, Repr

structure Message where
  request : Request
  files : List File
deriving DecidableEq, Repr

/-- `cap_to_text` and `cap_from_text` -/
structure LibCap (C : Type) where
  toText : C → Bytes
  fromText : Bytes → Option C

def cstring (s : Bytes) : Bytes := s.takeWhile (· ≠ 0)

variable {C : Type} (cap : LibCap C)

/-- The arguments that reach the system. -/
def Op.call : Op C → Op C
  | .chdir path => .chdir (cstring path)
  | op => op

def Op.request : Op C → SetRequest
  | .setresuid r e s => .setresuid r e s
  | .setresgid r e s => .setresgid r e s
  | .setgroups groups => .setgroups groups.length
  | .capSetProc caps => .capSetProc ((cap.toText caps).length + 1)
  | .capDropBound c => .capDropBound c
  | .capSetAmbient c value => .capSetAmbient c value
  | .capResetAmbient => .capResetAmbient
  | .capSetSecbits bits => .capSetSecbits bits
  | .chdir path => .chdir (path.length + 1)
  | .umask mask => .umask mask

def gids (groups : List UInt32) : Bytes := groups.flatMap fun g => leBytes 4 g.toNat

/-- What the memory file holds. -/
def Op.memory : Op C → Option Bytes
  | .setgroups [] => none
  | .setgroups groups => some (gids groups)
  | .capSetProc caps => some (cap.toText caps ++ [0])
  | .chdir path => some (path ++ [0])
  | _ => none

/-- The message that is sent after the call; the reply is awaited at the other end of `pout`. -/
def Op.message (op : Op C) (pout : File) : Message := ⟨.set (op.request cap), pout :: (op.memory cap).toList.map .memory⟩

/-- The supervisor maps the second file that came with the request. -/
def SetRequest.mapped : SetRequest → Bool
  | .setgroups n => n ≠ 0
  | .capSetProc _ => true
  | .chdir _ => true
  | _ => false

/-- The supervisor takes the first control message for granted. -/
def SetRequest.unchecked : SetRequest → Bool
  | .setgroups _ => false
  | .capSetProc _ => false
  | .chdir _ => false
  | _ => true

def readGids (n : Nat) (content : Bytes) : List UInt32 :=
  (List.range n).map fun i => UInt32.ofNat (leNat ((content.drop (4 * i)).take 4))

/-- What the supervisor calls, given what it has mapped. -/
def SetRequest.call (content : Bytes) : SetRequest → Option (Op C)
  | .setresuid r e s => some (.setresuid r e s)
  | .setresgid r e s => some (.setresgid r e s)
  | .setgroups n => some (.setgroups (readGids n content))
  | .capSetProc size => (cap.fromText (cstring (content.take size))).map .capSetProc
  | .capDropBound c => some (.capDropBound c)
  | .capSetAmbient c value => some (.capSetAmbient c value)
  | .capResetAmbient => some .capResetAmbient
  | .capSetSecbits bits => some (.capSetSecbits bits)
  | .chdir size => some (.chdir (cstring (content.take size)))
  | .umask mask => some (.umask mask)

/-- Capabilities are the same after having been text. -/
structure LibCap.Lossless : Prop where
  round : ∀ c, cap.fromText (cap.toText c) = some c
  noNul : ∀ c, (0 : UInt8) ∉ cap.toText c

section
variable {cap} {s : Bytes} {op : Op C}

theorem cstring_terminated (s rest : Bytes) : cstring (s ++ 0 :: rest) = cstring s := by
  induction s with
  | nil => rfl
  | cons b s ih =>
      by_cases hb : b = 0
      · rw [hb]
        rfl
      · have hkeep : ∀ more, cstring (b :: more) = b :: cstring more := fun more =>
          List.takeWhile_cons_of_pos (decide_eq_true hb)
        rw [List.cons_append, hkeep, hkeep, ih]

theorem cstring_plain (h : (0 : UInt8) ∉ s) : cstring s = s :=
  List.takeWhile_eq_self_iff.mpr fun _ hb => decide_eq_true fun hzero => h (hzero ▸ hb)

theorem readGids_gids (groups : List UInt32) : readGids groups.length (gids groups) = groups := by
  induction groups with
  | nil => rfl
  | cons g groups ih =>
      have hword : (leBytes 4 g.toNat).length = 4 := rfl
      have htail : ∀ i, (gids (g :: groups)).drop (4 * (i + 1)) = (gids groups).drop (4 * i) := by
        intro i
        change (leBytes 4 g.toNat ++ gids groups).drop _ = _
        rw [show 4 * (i + 1) = (leBytes 4 g.toNat).length + 4 * i by rw [hword]; omega, List.drop_append]
        simp
      have hhead : (gids (g :: groups)).take 4 = leBytes 4 g.toNat := List.take_left' hword
      rw [readGids, List.length_cons, List.range_succ_eq_map, List.map_cons, List.map_map]
      refine congrArg₂ List.cons ?_ ?_
      · change UInt32.ofNat (leNat ((gids (g :: groups)).take 4)) = g
        rw [hhead, leNat_leBytes 4 g.toNat g.toNat_lt, UInt32.ofNat_toNat]
      · refine Eq.trans ?_ ih
        apply List.map_congr_left
        intro i _
        change UInt32.ofNat (leNat (((gids (g :: groups)).drop (4 * (i + 1))).take 4)) = _
        rw [htail]

/-- The supervisor calls what the sender called. -/
theorem request_call (hcap : cap.Lossless) (op : Op C) :
    (op.request cap).call cap ((op.memory cap).getD []) = some op.call := by
  cases op with
  | setgroups groups =>
      cases groups with
      | nil => rfl
      | cons g groups => exact congrArg (fun gs => some (Op.setgroups gs)) (readGids_gids (g :: groups))
  | capSetProc caps =>
      have hlen : (cap.toText caps).length + 1 = (cap.toText caps ++ [0]).length := by rw [List.length_append]; rfl
      change (cap.fromText (cstring ((cap.toText caps ++ [0]).take ((cap.toText caps).length + 1)))).map Op.capSetProc = _
      rw [hlen, List.take_length, cstring_terminated, cstring_plain (hcap.noNul caps), hcap.round]
      rfl
  | chdir path =>
      have hlen : path.length + 1 = (path ++ [0]).length := by rw [List.length_append]; rfl
      change some (Op.chdir (cstring ((path ++ [0]).take (path.length + 1)))) = _
      rw [hlen, List.take_length, cstring_terminated]
      rfl
  | _ => rfl

theorem request_mapped (op : Op C) : (op.request cap).mapped = (op.memory cap).isSome := by
  cases op with
  | setgroups groups => cases groups <;> rfl
  | _ => rfl

end

end Emilua.Supervisor
