import Emilua.Lib.Command
import Emilua.Lib.FdTable

/-!
`system_spawn_child_main` of Linux and FreeBSD: what the child of `system.spawn`
does to its descriptors before it calls `exec`. The two differ in the attributes
that a process has there; `umask` and the resets of signal handlers, which have
nothing to report, are left out.
-/
namespace Emilua.Unix.Spawn
open Command

inductive Platform where
  | linux
  | freebsd
deriving DecidableEq, Repr

/-- An open file of the parent, or an end of the pipe that the child makes for a
standard stream. -/
inductive File where
  | opened (id : Nat)
  | readEnd (stream : Nat)
  | writeEnd (stream : Nat)
deriving DecidableEq, Repr

inductive Attribute where
  | scheduler
  | startNewSession
  | processGroup
  | extraGroups
  | groupIds
  | userIds
  | pdeathsig
  | workingDirectory
  | workingDirectoryFd
  | controllingTerminal
  | nsenterUser
  | nsenterMount
  | nsenterUts
  | nsenterIpc
  | nsenterNet
deriving DecidableEq, Repr

/-- The attributes in the order in which the child sets them. -/
def Attribute.order : Platform → List Attribute
  | .linux => [.scheduler, .startNewSession, .processGroup, .extraGroups, .groupIds, .userIds,
      .pdeathsig, .workingDirectory, .workingDirectoryFd, .controllingTerminal, .nsenterUser,
      .nsenterMount, .nsenterUts, .nsenterIpc, .nsenterNet]
  | .freebsd => [.scheduler, .startNewSession, .processGroup, .extraGroups, .groupIds, .userIds,
      .pdeathsig, .workingDirectory, .workingDirectoryFd, .controllingTerminal]

/-- `spawn_arguments_t`; `none` stands for -1. -/
structure SpawnArguments where
  asked : Attribute → Bool
  closeonexecpipe : Nat
  programfd : Option Nat
  procStdin : Option Nat
  procStdout : Option Nat
  procStderr : Option Nat
  extraFds : List (Nat × Nat)

inductive Call where
  | attribute (a : Attribute)
  | pipe
  | dup2 (src dst : Nat)
  | close (fd : Nat)
  | setCloexec (fd : Nat)
  | closeRange (first : Nat)
  | fexecve (fd : Nat)
  | execve
deriving DecidableEq, Repr

/-- The descriptor table, `args`, `pipefd` and the `idx` of `nextfd`. -/
structure Vars where
  table : FdTable File
  args : SpawnArguments
  pipefd : Nat × Nat
  idx : Nat

/-- `calls` has the system calls, the last one first, and their `errno`. -/
structure Child where
  vars : Vars
  calls : List (Call × Option Nat)

/-- The child has written `code` to `fd` and ends. -/
structure Failed where
  child : Child
  fd : Nat
  code : Nat

abbrev Step := Child → Except Failed Child

def EBADF : Nat := 9

/-- The numbers `nextfd` passes over. -/
def SpawnArguments.busy (args : SpawnArguments) : List Nat :=
  args.closeonexecpipe :: (args.programfd.toList ++ args.extraFds.map Prod.snd)

def skipBusy (busy : List Nat) : Nat → Nat → Nat
  | 0, idx => idx
  | fuel + 1, idx => if busy.contains idx then skipBusy busy fuel (idx + 1) else idx

def nextfd (busy : List Nat) (idx : Nat) : Nat := skipBusy busy busy.length idx

def Vars.nextfd (v : Vars) : Nat := Spawn.nextfd v.args.busy v.idx

section
variable (faults : Nat → Option Nat)

/-- A system call that goes wrong of itself, when `act` is not possible, or as
`faults` has it; an error is written to `replyTo`. -/
def call (replyTo : Vars → Nat) (c : Vars → Call) (act : Vars → Option Vars) : Step := fun s =>
  let failed code := .error ⟨⟨s.vars, (c s.vars, some code) :: s.calls⟩, replyTo s.vars, code⟩
  match faults s.calls.length with
  | some code => failed code
  | none =>
      match act s.vars with
      | none => failed EBADF
      | some v => .ok ⟨v, (c s.vars, none) :: s.calls⟩

def Vars.pipe (v : Vars) : Nat := v.args.closeonexecpipe

def dup2 (replyTo : Vars → Nat) (src dst : Vars → Nat) : Step :=
  call faults replyTo (fun v => .dup2 (src v) (dst v)) fun v =>
    (v.table.dup2 (src v) (dst v)).map fun t => { v with table := t }

/-- `close` leaves the number closed, also when it returns an error. -/
def closeFd (n : Nat) : Step := fun s =>
  let r := if (s.vars.table.entry n).isSome then faults s.calls.length else some EBADF
  .ok ⟨{ s.vars with table := s.vars.table.close n }, (.close n, r) :: s.calls⟩

def setCloexec (n : Nat) : Step :=
  call faults (fun _ => 10) (fun _ => .setCloexec n) fun v =>
    (v.table.setCloexec n).map fun t => { v with table := t }

def setAttributes (platform : Platform) : Step :=
  each (fun a => ifThen (·.vars.args.asked a) (call faults Vars.pipe (fun _ => .attribute a) some))
    (Attribute.order platform)

def makePipe (stream : Nat) : Step :=
  call faults Vars.pipe (fun _ => .pipe) fun v =>
    let (t, pipefd) := v.table.pipe (.readEnd stream) (.writeEnd stream)
    some { v with table := t, pipefd := pipefd }

/-- Make a standard stream refer to what is asked for; `side` is the end of a pipe
that the child keeps. -/
def redirect (stream : Nat) (proc : SpawnArguments → Option Nat) (side : Nat × Nat → Nat) : Step :=
  fun s =>
    match proc s.vars.args with
    | none => seq (makePipe faults stream)
        (dup2 faults Vars.pipe (fun v => side v.pipefd) fun _ => stream) s
    | some n =>
        if n = stream then .ok s
        else dup2 faults Vars.pipe (fun _ => n) (fun _ => stream) s

def redirectStdin : Step := redirect faults 0 SpawnArguments.procStdin Prod.fst
def redirectStdout : Step := redirect faults 1 SpawnArguments.procStdout Prod.snd
def redirectStderr : Step := redirect faults 2 SpawnArguments.procStderr Prod.snd

/-- Copy a source out of the range of destinations and use the copy. -/
def relocate (src : Nat) (store : Nat → SpawnArguments → SpawnArguments) : Step :=
  seq (dup2 faults Vars.pipe (fun _ => src) Vars.nextfd) (assign fun s =>
    { s with vars := { s.vars with args := store s.vars.nextfd s.vars.args, idx := s.vars.nextfd + 1 } })

def relocatePipe : Step := fun s =>
  if s.vars.args.closeonexecpipe < 10 then
    relocate faults s.vars.args.closeonexecpipe
      (fun n args => { args with closeonexecpipe := n }) s
  else .ok s

def relocateProgram : Step := fun s =>
  match s.vars.args.programfd with
  | none => .ok s
  | some p =>
      if p < 10 then relocate faults p (fun n args => { args with programfd := some n }) s
      else .ok s

def relocateSource (i : Nat) : Step := fun s =>
  match s.vars.args.extraFds[i]? with
  | none => .ok s
  | some (key, src) =>
      if 9 < src then .ok s
      else relocate faults src (fun n args => { args with extraFds := args.extraFds.set i (key, n) }) s

def relocateSources : Step := fun s =>
  each (relocateSource faults) (List.range s.vars.args.extraFds.length) s

/-- Give a number from 3 to 9 to the child, or close it. -/
def inherit (i : Nat) : Step := fun s =>
  match s.vars.args.extraFds.find? (fun kv => kv.1 == i) with
  | some (dst, src) => dup2 faults Vars.pipe (fun _ => src) (fun _ => dst) s
  | none => closeFd faults i s

def movePipe : Step := fun s =>
  if s.vars.args.closeonexecpipe ≠ 10 then dup2 faults Vars.pipe Vars.pipe (fun _ => 10) s else .ok s

def moveProgram : Step := fun s =>
  match s.vars.args.programfd with
  | none => .ok s
  | some p =>
      seq (fun s => if p ≠ 11 then dup2 faults (fun _ => 10) (fun _ => p) (fun _ => 11) s else .ok s)
        (setCloexec faults 11) s

def closeRange : Step :=
  let first (v : Vars) := if v.args.programfd.isNone then 11 else 12
  call faults (fun _ => 10) (fun v => .closeRange (first v)) fun v =>
    some { v with table := v.table.closeFrom (first v) }

/-- The table stays as it is when `exec` fails. -/
def exec : Step := fun s =>
  match s.vars.args.programfd with
  | some p => call faults (fun _ => 10) (fun _ => .fexecve p)
      (fun v => (v.table.entry p).map fun _ => v) s
  | none => call faults (fun _ => 10) (fun _ => .execve) some s

/-- The child up to its call of `exec`. -/
def prepare (platform : Platform) : Step :=
  seq (setAttributes faults platform) <|
  seq (redirectStdin faults) <| seq (redirectStdout faults) <| seq (redirectStderr faults) <|
  seq (relocatePipe faults) <| seq (relocateProgram faults) <| seq (relocateSources faults) <|
  seq (each (inherit faults) (List.range' 3 7)) <|
  seq (movePipe faults) <| seq (setCloexec faults 10) <| seq (moveProgram faults) <| closeRange faults

def childMain (platform : Platform) : Step := seq (prepare faults platform) (exec faults)

end

/-! The arguments of `system.spawn` that name descriptors. -/

inductive Stdio where
  | nil
  | share
  | handle (fd : Nat)
deriving DecidableEq, Repr

def Stdio.proc (stream : Nat) : Stdio → Option Nat
  | .nil => none
  | .share => some stream
  | .handle fd => some fd

def Stdio.numbers : Stdio → List Nat
  | .handle fd => [fd]
  | _ => []

structure Handles where
  stdin : Stdio
  stdout : Stdio
  stderr : Stdio
  program : Option Nat
  extraFds : Nat → Option Nat
  closeonexecpipe : Nat

/-- `extra_fds` as `system_spawn` reads it. -/
def Handles.pairs (h : Handles) : List (Nat × Nat) :=
  (List.range' 3 7).filterMap fun i => (h.extraFds i).map fun fd => (i, fd)

def Handles.sources (h : Handles) : List Nat := h.pairs.map Prod.snd

def Handles.numbers (h : Handles) : List Nat :=
  h.stdin.numbers ++ h.stdout.numbers ++ h.stderr.numbers ++
    h.closeonexecpipe :: (h.program.toList ++ h.sources)

/-- The standard streams of the parent are open, and the handles refer to open
descriptors other than these. -/
structure Request extends Handles where
  table : FdTable File
  asked : Attribute → Bool
  std : ∀ n < 3, table.entry n ≠ none
  given : ∀ n ∈ toHandles.numbers, 3 ≤ n ∧ table.entry n ≠ none

def Request.arguments (req : Request) : SpawnArguments where
  asked := req.asked
  closeonexecpipe := req.closeonexecpipe
  programfd := req.program
  procStdin := req.stdin.proc 0
  procStdout := req.stdout.proc 1
  procStderr := req.stderr.proc 2
  extraFds := req.pairs

def Request.child (req : Request) : Child := ⟨⟨req.table, req.arguments, (0, 0), 10⟩, []⟩

def spawn (faults : Nat → Option Nat) (platform : Platform) (req : Request) : Except Failed Child :=
  childMain faults platform req.child

end Emilua.Unix.Spawn
