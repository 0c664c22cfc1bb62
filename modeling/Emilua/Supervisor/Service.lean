import Emilua.Supervisor.Protocol
import Emilua.Lib.Transition

/-!
The loop of the supervisor. Between two messages it has its streams and its socket
open and nothing else, whatever the messages were and however the system answered,
so that a new process gets these and the files that came for it.
-/
namespace Emilua.Supervisor

/-- The variables that a new process gets copies of; `none` stands for -1. -/
structure Globals where
  inboxfd : Option Nat
  procStdin : Option Nat
  procStdout : Option Nat
  procStderr : Option Nat
  procStderrHasColor : Bool
  hasLuaHook : Bool

/-- The supervisor, with the attributes that a process has and hands down. -/
structure Service (A : Type) where
  table : FdTable File
  globals : Globals
  attrs : A

/-- A new process before it has done anything. -/
structure Child (A : Type) where
  table : FdTable File
  globals : Globals
  attrs : A
  cloneFlags : Nat

/-- How the system answers: how many files there is room for, which calls fail, and
the number of the new process or the error. -/
structure Answers where
  room : Nat
  mmapFails : Bool
  callFails : Bool
  clone : Except Nat Nat

/-- What a message leads to. A reply goes to the file that it names. -/
inductive Event (A : Type) where
  | dropped
  | created (child : Child A) (pid : Nat) (replyTo : Option File)
  | refused (code : Nat) (replyTo : Option File)
  | answered (replyTo : Option File)

/-- The next turn of the loop, the end of the process after all of its children, or
the end by a null pointer. -/
inductive Result (A : Type) where
  | next (s : Service A) (e : Event A)
  | exit (code : Nat)
  | crash

/-- The first number that is left in `fds`, which loses it. -/
def takeFd : List (Option Nat) → Option (Nat × List (Option Nat))
  | [] => none
  | some n :: fds => some (n, none :: fds)
  | none :: fds => (takeFd fds).map fun r => (r.1, none :: r.2)

/-- What a variable for a stream is set to. -/
def assign (stream : Nat) (action : Action) (old : Option Nat) (fds : List (Option Nat)) : Option Nat × List (Option Nat) :=
  match action with
  | .closeFd => (none, fds)
  | .shareParent => (some stream, fds)
  | .usePipe =>
      match takeFd fds with
      | some (n, fds) => (some n, fds)
      | none => (old, fds)

def closeStream (stream : Nat) (proc : Option Nat) (t : FdTable File) : FdTable File :=
  match proc with
  | none => t
  | some n => if n = stream then t else t.close n

def closeFd (n : Option Nat) (t : FdTable File) : FdTable File := t.closeAll n.toList

/-- The result of `umask` is not looked at. -/
def Op.mayFail {C : Type} : Op C → Bool
  | .umask _ => false
  | _ => true

section
variable {A C : Type} (cap : LibCap C) (effect : Op C → A → A)

/-- The variables for a new process, from the array of the descriptors that came. -/
def Service.assigned (s : Service A) (r : CreateProcess) (fds : List (Option Nat)) : Globals :=
  let stdin := assign 0 r.stdinAction s.globals.procStdin fds.tail
  let stdout := assign 1 r.stdoutAction s.globals.procStdout stdin.2
  let stderr := assign 2 r.stderrAction s.globals.procStderr stdout.2
  { inboxfd := fds.head?.join
    procStdin := stdin.1
    procStdout := stdout.1
    procStderr := stderr.1
    procStderrHasColor := if r.stderrAction = .shareParent then r.stderrHasColor else s.globals.procStderrHasColor
    hasLuaHook := r.hasLuaHook }

def Globals.closeStreams (g : Globals) (t : FdTable File) : FdTable File :=
  closeStream 2 g.procStderr (closeStream 1 g.procStdout (closeStream 0 g.procStdin t))

/-- With the files installed as `ns`. -/
def Service.create (s : Service A) (a : Answers) (r : CreateProcess) (t : FdTable File) (ns : List Nat) : Result A :=
  let g := s.assigned r ((ns.map some ++ List.replicate 4 none).take 4)
  let replyTo := g.inboxfd.bind t.file
  match a.clone with
  | .ok pid =>
      let added := t.add ⟨.process pid, true⟩
      .next { s with table := (closeFd g.inboxfd (g.closeStreams added.1)).close added.2, globals := g }
        (.created ⟨t, g, s.attrs, r.cloneFlags⟩ pid replyTo)
  | .error code => .next { s with table := closeFd g.inboxfd (g.closeStreams t), globals := g } (.refused code replyTo)

def Service.createProcess (s : Service A) (a : Answers) (r : CreateProcess) (files : List File) : Result A :=
  let came := s.table.install (files.take a.room)
  if a.room < files.length then .next { s with table := came.1.closeAll came.2 } .dropped
  else s.create a r came.1 came.2

/-- The content of the file to be mapped. -/
def mapFile (a : Answers) (t : FdTable File) (fd : Option Nat) : Option Wire.Bytes :=
  if a.mmapFails then none
  else
    match fd.bind t.file with
    | some (.memory content) => some content
    | _ => none

def Service.repeat (s : Service A) (a : Answers) (r : SetRequest) (t : FdTable File) (ns : List Nat) : Result A :=
  let content := if r.mapped then mapFile a t ns[1]? else some []
  match content.bind (r.call cap) with
  | none => .exit 1
  | some op =>
      if a.callFails ∧ op.mayFail then .exit 1
      else .next { s with attrs := effect op s.attrs, table := closeFd ns[0]? (if r.mapped then closeFd ns[1]? t else t) }
        (.answered (ns[0]?.bind t.file))

def Service.set (s : Service A) (a : Answers) (r : SetRequest) (files : List File) : Result A :=
  let came := s.table.install (files.take a.room)
  if r.unchecked ∧ came.2 = [] then .crash else s.repeat cap effect a r came.1 came.2

def Service.handle (s : Service A) (a : Answers) (m : Message) : Result A :=
  match m.request with
  | .createProcess r => s.createProcess a r m.files
  | .set r => s.set cap effect a r m.files

/-- The supervisor before the first message, given what it was forked with. -/
def Service.start (t : FdTable File) (sockfd : Nat) (g : Globals) (attrs : A) : Option (Service A) :=
  (t.dup2 sockfd 3).map fun t => ⟨t.closeFrom 4, g, attrs⟩

end

/-! The messages as they are sent. -/

def piped (action : Action) (file : File) : List File := if action = .usePipe then [file] else []

/-- The message of an actor that has `given` for its streams. -/
def CreateProcess.message (r : CreateProcess) (inbox : File) (given : Nat → File) : Message :=
  ⟨.createProcess r, inbox :: (piped r.stdinAction (given 0) ++ (piped r.stdoutAction (given 1) ++
    piped r.stderrAction (given 2)))⟩

inductive Sent {C : Type} (cap : LibCap C) : Message → Prop
  | create (r : CreateProcess) (inbox : File) (given : Nat → File) : Sent cap (r.message inbox given)
  | set (op : Op C) (pout : File) : Sent cap (op.message cap pout)

/-- What is open between two messages. -/
def restFile (n : Nat) : Option File :=
  if n < 3 then some (.standard n) else if n = 3 then some .service else none

def AtRest (t : FdTable File) : Prop := ∀ n, t.file n = restFile n

/-- A variable that was set, and what was taken for it. -/
inductive Given (stream : Nat) : Action → Option Nat → List Nat → Prop
  | closeFd : Given stream .closeFd none []
  | shareParent : Given stream .shareParent (some stream) []
  | usePipe (n : Nat) : Given stream .usePipe (some n) [n]

def left (fds : List (Option Nat)) : List Nat := fds.filterMap id

section
variable {A C : Type} {cap : LibCap C} {effect : Op C → A → A} {s s' : Service A} {t : FdTable File} {fds : List (Option Nat)}
  {n m stream : Nat} {ns c : List Nat} {action : Action} {old proc : Option Nat} {files : List File} {file : File}

theorem takeFd_left (h : left fds = n :: ns) : ∃ fds', takeFd fds = some (n, fds') ∧ left fds' = ns := by
  induction fds with
  | nil => cases h
  | cons fd fds ih =>
      cases fd with
      | some k =>
          cases h
          exact ⟨none :: fds, rfl, rfl⟩
      | none =>
          obtain ⟨fds', htake, hleft⟩ := ih h
          refine ⟨none :: fds', ?_, hleft⟩
          rw [takeFd, htake]
          rfl

theorem assign_given (h : (piped action file).length ≤ (left fds).length) :
    ∃ c, Given stream action (assign stream action old fds).1 c ∧ left fds = c ++ left (assign stream action old fds).2 := by
  cases action with
  | closeFd => exact ⟨[], .closeFd, rfl⟩
  | shareParent => exact ⟨[], .shareParent, rfl⟩
  | usePipe =>
      cases hleft : left fds with
      | nil =>
          rw [hleft] at h
          cases h
      | cons k ks =>
          obtain ⟨fds', htake, hks⟩ := takeFd_left hleft
          refine ⟨[k], ?_, ?_⟩
          · rw [assign, htake]
            exact .usePipe k
          · rw [assign, htake, ← hks]
            rfl

theorem Given.length (h : Given stream action proc c) (file : File) : c.length = (piped action file).length := by
  cases h <;> rfl

theorem Given.closes (h : Given stream action proc c) (hc : ∀ n ∈ c, n ≠ stream) (t : FdTable File) :
    closeStream stream proc t = t.closeAll c := by
  cases h with
  | closeFd => rfl
  | shareParent => exact if_pos rfl
  | usePipe n => exact if_neg (hc n (List.mem_singleton_self n))

theorem left_array (h : ns.length ≤ 3) : left ((ns.map some ++ List.replicate 4 none).take 3) = ns := by
  have htake : (ns.map some).take 3 = ns.map some := List.take_of_length_le (by rw [List.length_map]; exact h)
  rw [List.take_append, htake, List.take_replicate, left, List.filterMap_append, List.filterMap_map]
  simp

theorem AtRest.low (h : AtRest t) (hn : t.entry n = none) : 4 ≤ n := by
  have hfile : restFile n = none := by
    rw [← h n]
    exact FdTable.file_eq_none_iff.mpr hn
  rw [restFile] at hfile
  split at hfile
  · cases hfile
  · split at hfile
    · cases hfile
    · omega

theorem AtRest.file_none (h : AtRest t) (hn : t.entry n = none) : restFile n = none := by
  rw [← h n]
  exact FdTable.file_eq_none_iff.mpr hn

/-- What was installed is closed again. -/
theorem AtRest.after {t' : FdTable File} (h : AtRest t) (hnew : ∀ n ∈ ns, t.entry n = none) (hin : ∀ n ∈ ns, t'.file n = none)
    (hout : ∀ n, n ∉ ns → t'.file n = t.file n) : AtRest t' := by
  intro n
  by_cases hn : n ∈ ns
  · rw [hin n hn, h.file_none (hnew n hn)]
  · rw [hout n hn, h n]

/-- A variable of a new process, for a stream that its actor asked for. -/
inductive Wanted (t : FdTable File) (stream : Nat) (file : File) : Action → Option Nat → Prop
  | closeFd : Wanted t stream file .closeFd none
  | shareParent : Wanted t stream file .shareParent (some stream)
  | usePipe (n : Nat) (hn : 4 ≤ n) (hfile : t.file n = some file) : Wanted t stream file .usePipe (some n)

theorem Given.wanted (h : Given stream action proc c) (hc : ∀ n ∈ c, 4 ≤ n)
    (hfiles : c.map t.file = (piped action file).map some) : Wanted t stream file action proc := by
  cases h with
  | closeFd => exact .closeFd
  | shareParent => exact .shareParent
  | usePipe n => exact .usePipe n (hc n (List.mem_singleton_self n)) (List.cons.inj hfiles).1

/-- A new process has the streams of the supervisor, its own inbox and what was
given for its streams, and no file of another message. -/
structure Child.Starts (child : Child A) (s : Service A) (r : CreateProcess) (inbox : File) (given : Nat → File) : Prop where
  attrs : child.attrs = s.attrs
  cloneFlags : child.cloneFlags = r.cloneFlags
  hasLuaHook : child.globals.hasLuaHook = r.hasLuaHook
  inboxed : ∃ n, 4 ≤ n ∧ child.globals.inboxfd = some n ∧ child.table.file n = some inbox
  stdin : Wanted child.table 0 (given 0) r.stdinAction child.globals.procStdin
  stdout : Wanted child.table 1 (given 1) r.stdoutAction child.globals.procStdout
  stderr : Wanted child.table 2 (given 2) r.stderrAction child.globals.procStderr
  rest : ∀ n < 4, child.table.file n = restFile n
  own : ∀ n f, 4 ≤ n → child.table.file n = some f → f ∈ (r.message inbox given).files

theorem piped_length_le (action : Action) (file : File) : (piped action file).length ≤ 1 := by
  rw [piped]
  split
  · exact Nat.le_refl 1
  · exact Nat.zero_le 1

theorem assigned_given (s : Service A) {r : CreateProcess} {i : Nat} {rest : List Nat} {given : Nat → File}
    (hlen : rest.length = (piped r.stdinAction (given 0)).length + ((piped r.stdoutAction (given 1)).length +
      (piped r.stderrAction (given 2)).length)) :
    let g := s.assigned r (((i :: rest).map some ++ List.replicate 4 none).take 4)
    g.inboxfd = some i ∧ ∃ c₀ c₁ c₂, rest = c₀ ++ (c₁ ++ c₂) ∧ Given 0 r.stdinAction g.procStdin c₀ ∧
      Given 1 r.stdoutAction g.procStdout c₁ ∧ Given 2 r.stderrAction g.procStderr c₂ := by
  have h₀ := piped_length_le r.stdinAction (given 0)
  have h₁ := piped_length_le r.stdoutAction (given 1)
  have h₂ := piped_length_le r.stderrAction (given 2)
  have hleft := @left_array rest (by omega)
  refine ⟨rfl, ?_⟩
  obtain ⟨c₀, hc₀, hrest₀⟩ := @assign_given
    ((rest.map some ++ List.replicate 4 none).take 3) 0 r.stdinAction s.globals.procStdin (given 0) (by rw [hleft]; omega)
  have hlen₀ := congrArg List.length hrest₀
  rw [hleft, List.length_append, hc₀.length (given 0)] at hlen₀
  obtain ⟨c₁, hc₁, hrest₁⟩ := @assign_given
    (assign 0 r.stdinAction s.globals.procStdin ((rest.map some ++ List.replicate 4 none).take 3)).2 1 r.stdoutAction
    s.globals.procStdout (given 1) (by omega)
  have hlen₁ := congrArg List.length hrest₁
  rw [List.length_append, hc₁.length (given 1)] at hlen₁
  obtain ⟨c₂, hc₂, hrest₂⟩ := @assign_given
    (assign 1 r.stdoutAction s.globals.procStdout
      (assign 0 r.stdinAction s.globals.procStdin ((rest.map some ++ List.replicate 4 none).take 3)).2).2 2 r.stderrAction
    s.globals.procStderr (given 2) (by omega)
  have hlen₂ := congrArg List.length hrest₂
  rw [List.length_append, hc₂.length (given 2)] at hlen₂
  refine ⟨c₀, c₁, c₂, ?_, hc₀, hc₁, hc₂⟩
  rw [hleft, hrest₁, hrest₂] at hrest₀
  refine hrest₀.trans (congrArg (c₀ ++ ·) (congrArg (c₁ ++ ·) ?_))
  exact (congrArg (c₂ ++ ·) (List.length_eq_zero_iff.mp (by omega))).trans (List.append_nil c₂)

theorem closeStreams_eq {g : Globals} {r : CreateProcess} {c₀ c₁ c₂ : List Nat} (h₀ : Given 0 r.stdinAction g.procStdin c₀)
    (h₁ : Given 1 r.stdoutAction g.procStdout c₁) (h₂ : Given 2 r.stderrAction g.procStderr c₂)
    (hc : ∀ n ∈ c₀ ++ (c₁ ++ c₂), 4 ≤ n) (t : FdTable File) : g.closeStreams t = t.closeAll (c₀ ++ (c₁ ++ c₂)) := by
  have hne : ∀ n ∈ c₀ ++ (c₁ ++ c₂), ∀ stream < 3, n ≠ stream := fun n hn stream hs heq => by
    have := hc n hn
    omega
  rw [Globals.closeStreams, h₀.closes fun n hn => hne n (List.mem_append_left _ hn) 0 (by omega),
    h₁.closes fun n hn => hne n (List.mem_append_right _ (List.mem_append_left _ hn)) 1 (by omega),
    h₂.closes fun n hn => hne n (List.mem_append_right _ (List.mem_append_right _ hn)) 2 (by omega)]
  rw [FdTable.closeAll, FdTable.closeAll, FdTable.closeAll, FdTable.closeAll, List.foldl_append, List.foldl_append]

theorem message_length (r : CreateProcess) (inbox : File) (given : Nat → File) :
    (r.message inbox given).files.length = (piped r.stdinAction (given 0)).length + ((piped r.stdoutAction (given 1)).length +
      (piped r.stderrAction (given 2)).length) + 1 := by
  change (piped _ _ ++ (piped _ _ ++ piped _ _)).length + 1 = _
  rw [List.length_append, List.length_append]

theorem starts_of (h : AtRest s.table) {r : CreateProcess} {g : Globals} {inbox : File} {given : Nat → File}
    {i : Nat} {rest c₀ c₁ c₂ : List Nat} (hg : g = s.assigned r (((i :: rest).map some ++ List.replicate 4 none).take 4))
    (hhigh : ∀ n ∈ i :: rest, 4 ≤ n) (hfiles : (i :: rest).map t.file = (r.message inbox given).files.map some)
    (hrests : ∀ n, n ∉ i :: rest → t.file n = s.table.file n) (hinbox : g.inboxfd = some i) (hrest : rest = c₀ ++ (c₁ ++ c₂))
    (h₀ : Given 0 r.stdinAction g.procStdin c₀) (h₁ : Given 1 r.stdoutAction g.procStdout c₁)
    (h₂ : Given 2 r.stderrAction g.procStderr c₂) : (⟨t, g, s.attrs, r.cloneFlags⟩ : Child A).Starts s r inbox given := by
  have hparts : (c₀ ++ (c₁ ++ c₂)).map t.file =
      (piped r.stdinAction (given 0) ++ (piped r.stdoutAction (given 1) ++ piped r.stderrAction (given 2))).map some := by
    rw [← hrest]
    exact (List.cons.inj hfiles).2
  simp only [List.map_append] at hparts
  obtain ⟨hmap₀, hparts⟩ := List.append_inj hparts (by rw [List.length_map, List.length_map, h₀.length (given 0)])
  obtain ⟨hmap₁, hmap₂⟩ := List.append_inj hparts (by rw [List.length_map, List.length_map, h₁.length (given 1)])
  have hc : ∀ n ∈ c₀ ++ (c₁ ++ c₂), 4 ≤ n := hrest ▸ fun n hn => hhigh n (List.mem_cons_of_mem i hn)
  refine ⟨rfl, rfl, ?_, ?_, ?_, ?_, ?_, ?_, ?_⟩
  · rw [hg]
    rfl
  · exact ⟨i, hhigh i List.mem_cons_self, hinbox, (List.cons.inj hfiles).1⟩
  · exact h₀.wanted (fun n hn => hc n (List.mem_append_left _ hn)) hmap₀
  · exact h₁.wanted (fun n hn => hc n (List.mem_append_right _ (List.mem_append_left _ hn))) hmap₁
  · exact h₂.wanted (fun n hn => hc n (List.mem_append_right _ (List.mem_append_right _ hn))) hmap₂
  · intro n hn
    refine (hrests n fun hmem => ?_).trans (h n)
    have := hhigh n hmem
    omega
  · intro n f hn hf
    have hmem : n ∈ i :: rest := by
      by_contra hmem
      rw [hrests n hmem, h n, restFile, if_neg (by omega), if_neg (by omega)] at hf
      cases hf
    have hsome : some f ∈ (r.message inbox given).files.map some := by
      rw [← hfiles, ← hf]
      exact List.mem_map_of_mem hmem
    obtain ⟨f', hf', heq⟩ := List.mem_map.mp hsome
    cases heq
    exact hf'

theorem create_spec (h : AtRest s.table) (a : Answers) (r : CreateProcess) (inbox : File) (given : Nat → File) :
    ∃ s' e, s.create a r (s.table.install (r.message inbox given).files).1 (s.table.install (r.message inbox given).files).2 =
      .next s' e ∧ AtRest s'.table ∧ s'.attrs = s.attrs ∧
      ∀ child pid replyTo, e = .created child pid replyTo → child.Starts s r inbox given ∧ replyTo = some inbox := by
  have hlength := @FdTable.install_length _ s.table (r.message inbox given).files
  have hfiles := @FdTable.install_files _ s.table (r.message inbox given).files
  have hclosed : ∀ n ∈ (s.table.install (r.message inbox given).files).2, s.table.entry n = none := fun n hn =>
    FdTable.install_closed hn
  have hother : ∀ n, n ∉ (s.table.install (r.message inbox given).files).2 →
      (s.table.install (r.message inbox given).files).1.entry n = s.table.entry n := fun n hn => FdTable.install_other hn
  rw [message_length] at hlength
  generalize (s.table.install (r.message inbox given).files).1 = t at hfiles hother
  generalize (s.table.install (r.message inbox given).files).2 = ns at hlength hfiles hclosed hother
  cases ns with
  | nil => cases hlength
  | cons i rest =>
      have hhigh : ∀ n ∈ i :: rest, 4 ≤ n := fun n hn => h.low (hclosed n hn)
      obtain ⟨hinbox, c₀, c₁, c₂, hrest, h₀, h₁, h₂⟩ := assigned_given s (Nat.succ.inj hlength)
      generalize hg : s.assigned r (((i :: rest).map some ++ List.replicate 4 none).take 4) = g at hinbox h₀ h₁ h₂
      have hstreams : ∀ t, closeFd g.inboxfd (g.closeStreams t) = (t.closeAll rest).closeAll [i] := by
        intro t
        rw [hinbox, closeStreams_eq h₀ h₁ h₂ (hrest ▸ fun n hn => hhigh n (List.mem_cons_of_mem i hn)), ← hrest]
        rfl
      have hout : ∀ (t : FdTable File) n, n ∉ i :: rest → ((t.closeAll rest).closeAll [i]).file n = t.file n := by
        intro t n hn
        obtain ⟨hi, hrest⟩ := List.ne_and_not_mem_of_not_mem_cons hn
        rw [FdTable.file_closeAll, if_neg (mt List.mem_singleton.mp hi), FdTable.file_closeAll, if_neg hrest]
      have hin : ∀ (t : FdTable File) n, n ∈ i :: rest → ((t.closeAll rest).closeAll [i]).file n = none := by
        intro t n hn
        rw [FdTable.file_closeAll, FdTable.file_closeAll]
        rcases List.mem_cons.mp hn with rfl | hn
        · exact if_pos (List.mem_singleton_self n)
        · rw [if_pos hn, ite_self]
      have hrests : ∀ n, n ∉ i :: rest → t.file n = s.table.file n := fun n hn => FdTable.file_congr (hother n hn)
      have hstarts : (⟨t, g, s.attrs, r.cloneFlags⟩ : Child A).Starts s r inbox given := starts_of h hg.symm hhigh hfiles hrests
        hinbox hrest h₀ h₁ h₂
      have hreply : g.inboxfd.bind t.file = some inbox := by
        rw [hinbox]
        exact (List.cons.inj hfiles).1
      rw [Service.create, hg]
      dsimp only
      cases a.clone with
      | error code =>
          refine ⟨_, _, rfl, ?_, rfl, ?_⟩
          · dsimp only
            rw [hstreams]
            exact h.after hclosed (hin t) fun n hn => (hout t n hn).trans (hrests n hn)
          · intro child pid replyTo heq
            cases heq
      | ok pid =>
          obtain ⟨hnew, -, hadded⟩ := t.add_spec ⟨.process pid, true⟩
          refine ⟨_, _, rfl, ?_, rfl, ?_⟩
          · dsimp only
            rw [hstreams]
            refine @AtRest.after _ ((t.add ⟨.process pid, true⟩).2 :: i :: rest) _ h ?_ ?_ ?_
            · intro n hn
              by_cases hmem : n ∈ i :: rest
              · exact hclosed n hmem
              · rcases List.mem_cons.mp hn with rfl | hn
                · rw [← hother _ hmem]
                  exact hnew
                · exact absurd hn hmem
            · intro n hn
              rw [FdTable.file_close]
              split
              · rfl
              · rename_i hne
                exact hin _ n ((List.mem_cons.mp hn).resolve_left hne)
            · intro n hn
              obtain ⟨hne, hmem⟩ := List.ne_and_not_mem_of_not_mem_cons hn
              rw [FdTable.file_close, if_neg hne, hout _ n hmem, ← hrests n hmem]
              exact FdTable.file_congr (hadded n hne)
          · intro child pid' replyTo heq
            cases heq
            exact ⟨hstarts, hreply⟩

/-- A message of an actor leaves the supervisor as it was, and the process that it
may have asked for starts with what is its own. -/
theorem createProcess_spec (h : AtRest s.table) (a : Answers) (r : CreateProcess) (inbox : File) (given : Nat → File) :
    ∃ s' e, s.createProcess a r (r.message inbox given).files = .next s' e ∧ AtRest s'.table ∧ s'.attrs = s.attrs ∧
      ∀ child pid replyTo, e = .created child pid replyTo → child.Starts s r inbox given ∧ replyTo = some inbox := by
  by_cases hroom : a.room < (r.message inbox given).files.length
  · have hdropped : ∃ s', s.createProcess a r (r.message inbox given).files = .next s' .dropped ∧ s'.attrs = s.attrs ∧
        s'.table.entry = s.table.entry := ⟨_, if_pos hroom, rfl, FdTable.install_closeAll⟩
    obtain ⟨s', heq, hattrs, hentry⟩ := hdropped
    refine ⟨s', _, heq, ?_, hattrs, ?_⟩
    · intro n
      exact (FdTable.file_congr (congrFun hentry n)).trans (h n)
    · intro child pid replyTo heq
      cases heq
  · have hall : (r.message inbox given).files.take a.room = (r.message inbox given).files :=
      List.take_of_length_le (Nat.le_of_not_lt hroom)
    rw [show s.createProcess a r (r.message inbox given).files = _ from if_neg hroom, hall]
    exact create_spec h a r inbox given

theorem createProcess_made {a : Answers} {r : CreateProcess} {pid : Nat} (hroom : files.length ≤ a.room)
    (hclone : a.clone = .ok pid) : ∃ s' child replyTo, s.createProcess a r files = .next s' (.created child pid replyTo) := by
  have hcreate : s.createProcess a r files = s.create a r _ _ := if_neg (Nat.not_lt.mpr hroom)
  rw [hcreate, Service.create, hclone]
  exact ⟨_, _, _, rfl⟩

/-- What a request to repeat a call may lead to. -/
inductive Repeated (effect : Op C → A → A) (s : Service A) (a : Answers) (op : Op C) (pout : File) : Result A → Prop
  | answered (s' : Service A) (hrest : AtRest s'.table) (hattrs : s'.attrs = effect op.call s.attrs) :
      Repeated effect s a op pout (.next s' (.answered (some pout)))
  | silent (s' : Service A) (hroom : a.room = 0) (hrest : AtRest s'.table) (hattrs : s'.attrs = effect op.call s.attrs) :
      Repeated effect s a op pout (.next s' (.answered none))
  | failed (hfails : a.callFails = true ∨ a.mmapFails = true ∨ a.room < 2) : Repeated effect s a op pout (.exit 1)
  | crashed (hroom : a.room = 0) : Repeated effect s a op pout .crash

theorem message_files (op : Op C) (pout : File) : (op.message cap pout).files = pout :: (op.memory cap).toList.map .memory := rfl

theorem repeat_plain (hcap : cap.Lossless) (h : AtRest s.table) (a : Answers) {op : Op C} (pout : File)
    (hmemory : op.memory cap = none) :
    Repeated effect s a op pout (s.repeat cap effect a (op.request cap) (s.table.install ([pout].take a.room)).1
      (s.table.install ([pout].take a.room)).2) := by
  have hmapped : (op.request cap).mapped = false := by
    rw [request_mapped, hmemory]
    rfl
  have hcall : (op.request cap).call cap [] = some op.call := by
    have hcall := request_call hcap op
    rw [hmemory] at hcall
    exact hcall
  rw [Service.repeat, hmapped]
  rw [if_neg Bool.false_ne_true, Option.bind_some, hcall]
  dsimp only
  by_cases hfails : a.callFails = true ∧ op.call.mayFail = true
  · rw [if_pos hfails]
    exact .failed (.inl hfails.1)
  · rw [if_neg hfails]
    cases hroom : a.room with
    | zero => exact .silent _ hroom h rfl
    | succ k =>
        have hfile := @FdTable.install_files _ s.table [pout]
        have hclose := @FdTable.install_closeAll _ s.table [pout]
        have hall : [pout].take (k + 1) = [pout] := List.take_of_length_le (Nat.le_add_left 1 k)
        have hreply : (s.table.install [pout]).2[0]?.bind (s.table.install [pout]).1.file = some pout := (List.cons.inj hfile).1
        rw [hall, hreply]
        exact .answered _ (fun n => (FdTable.file_congr (congrFun hclose n)).trans (h n)) rfl

theorem mapFile_none (a : Answers) (t : FdTable File) : mapFile a t none = none := ite_self none

theorem mapFile_memory {a : Answers} {content : Wire.Bytes} (h : t.file n = some (.memory content)) :
    mapFile a t (some n) = if a.mmapFails then none else some content := by
  rw [mapFile, Option.bind_some, h]

theorem repeat_mapped (hcap : cap.Lossless) (h : AtRest s.table) (a : Answers) {op : Op C} (pout : File) {content : Wire.Bytes}
    (hmemory : op.memory cap = some content) :
    Repeated effect s a op pout (s.repeat cap effect a (op.request cap) (s.table.install ([pout, .memory content].take a.room)).1
      (s.table.install ([pout, .memory content].take a.room)).2) := by
  have hmapped : (op.request cap).mapped = true := by
    rw [request_mapped, hmemory]
    rfl
  have hcall : (op.request cap).call cap content = some op.call := by
    have hcall := request_call hcap op
    rw [hmemory] at hcall
    exact hcall
  rw [Service.repeat, hmapped, if_pos rfl, if_pos rfl]
  by_cases hroom : a.room < 2
  · -- the memory file has not come
    have hlen : (s.table.install ([pout, .memory content].take a.room)).2.length ≤ 1 := by
      rw [FdTable.install_length, List.length_take]
      omega
    have hnone : (s.table.install ([pout, .memory content].take a.room)).2[1]? = none := List.getElem?_eq_none hlen
    rw [hnone, mapFile_none]
    exact .failed (.inr (.inr hroom))
  · have hall : [pout, .memory content].take a.room = [pout, .memory content] :=
      List.take_of_length_le (Nat.le_of_not_lt hroom)
    rw [hall]
    have hlength := @FdTable.install_length _ s.table [pout, .memory content]
    have hfiles := @FdTable.install_files _ s.table [pout, .memory content]
    have hclosed : ∀ n ∈ (s.table.install [pout, .memory content]).2, s.table.entry n = none := fun n hn =>
      FdTable.install_closed hn
    have hother : ∀ n, n ∉ (s.table.install [pout, .memory content]).2 →
        (s.table.install [pout, .memory content]).1.entry n = s.table.entry n := fun n hn => FdTable.install_other hn
    generalize (s.table.install [pout, .memory content]).1 = t at hfiles hother
    generalize (s.table.install [pout, .memory content]).2 = ns at hlength hfiles hclosed hother
    obtain ⟨i, j, rfl⟩ := List.length_eq_two.mp hlength
    have hi : t.file i = some pout := (List.cons.inj hfiles).1
    have hj : t.file j = some (.memory content) := (List.cons.inj (List.cons.inj hfiles).2).1
    rw [show ([i, j] : List Nat)[1]? = some j from rfl, show ([i, j] : List Nat)[0]? = some i from rfl, mapFile_memory hj]
    by_cases hmmap : a.mmapFails = true
    · rw [if_pos hmmap]
      exact .failed (.inr (.inl hmmap))
    · rw [if_neg hmmap, Option.bind_some, hcall]
      dsimp only
      by_cases hfails : a.callFails = true ∧ op.call.mayFail = true
      · rw [if_pos hfails]
        exact .failed (.inl hfails.1)
      · rw [if_neg hfails]
        change Repeated effect s a op pout (.next _ (.answered (t.file i)))
        rw [hi]
        refine .answered _ (h.after hclosed ?_ ?_) rfl
        · intro n hn
          change ((t.closeAll [j]).closeAll [i]).file n = none
          rw [FdTable.file_closeAll, FdTable.file_closeAll]
          rcases List.mem_cons.mp hn with rfl | hn
          · exact if_pos (List.mem_singleton_self n)
          · rw [if_pos hn, ite_self]
        · intro n hn
          obtain ⟨hni, hnj⟩ := List.ne_and_not_mem_of_not_mem_cons hn
          change ((t.closeAll [j]).closeAll [i]).file n = s.table.file n
          rw [FdTable.file_closeAll, if_neg (mt List.mem_singleton.mp hni), FdTable.file_closeAll, if_neg hnj]
          exact FdTable.file_congr (hother n hn)

theorem set_spec (hcap : cap.Lossless) (h : AtRest s.table) (a : Answers) (op : Op C) (pout : File) :
    Repeated effect s a op pout (s.set cap effect a (op.request cap) (op.message cap pout).files) := by
  rw [Service.set]
  split
  · rename_i hcrash
    have hlen := congrArg List.length hcrash.2
    rw [FdTable.install_length, List.length_take, message_files, List.length_cons, List.length_nil] at hlen
    exact .crashed (by omega)
  · rw [message_files]
    cases hmemory : op.memory cap with
    | none => exact repeat_plain hcap h a pout hmemory
    | some content => exact repeat_mapped hcap h a pout hmemory

theorem set_answered (hcap : cap.Lossless) (h : AtRest s.table) {a : Answers} (op : Op C) (pout : File) (hroom : 2 ≤ a.room)
    (hmmap : a.mmapFails = false) (hcall : a.callFails = false) :
    ∃ s', s.set cap effect a (op.request cap) (op.message cap pout).files = .next s' (.answered (some pout)) ∧
      AtRest s'.table ∧ s'.attrs = effect op.call s.attrs := by
  have hset := @set_spec _ _ _ effect _ hcap h a op pout
  generalize s.set cap effect a (op.request cap) (op.message cap pout).files = result at hset
  cases hset with
  | answered s' hrest hattrs => exact ⟨s', rfl, hrest, hattrs⟩
  | silent s' hnone hrest hattrs => omega
  | failed hfails =>
      rw [hmmap, hcall] at hfails
      rcases hfails with hfails | hfails | hfails
      · cases hfails
      · cases hfails
      · omega
  | crashed hnone => omega

/-! Runs. -/

/-- The process that becomes the supervisor has its streams, and its socket somewhere else. -/
def Initial (s : Service A) : Prop := ∃ (t : FdTable File) (sockfd : Nat) (g : Globals) (attrs : A),
  (∀ n < 3, t.file n = some (.standard n)) ∧ t.file sockfd = some .service ∧ Service.start t sockfd g attrs = some s

def Step (cap : LibCap C) (effect : Op C → A → A) (s : Service A) (x : Answers × Message) (s' : Service A) : Prop :=
  Sent cap x.2 ∧ ∃ e, s.handle cap effect x.1 x.2 = .next s' e

theorem initial_atRest (h : Initial s) : AtRest s.table := by
  obtain ⟨t, sockfd, g, attrs, hstreams, hsock, hstart⟩ := h
  obtain ⟨t', hdup, hservice, hother⟩ := FdTable.dup2_of_open 3 hsock
  rw [Service.start, hdup] at hstart
  cases hstart
  intro n
  change (t'.closeFrom 4).file n = _
  rw [FdTable.file_closeFrom, restFile]
  by_cases hlow : n < 3
  · rw [if_neg (by omega), if_pos hlow, FdTable.file_congr (hother n (by omega)), hstreams n hlow]
  · by_cases hn : n = 3
    · rw [hn, if_neg (by omega), if_neg (by omega), if_pos rfl, hservice]
    · rw [if_pos (by omega), if_neg hlow, if_neg hn]

theorem step_atRest (hcap : cap.Lossless) (h : AtRest s.table) {x : Answers × Message} (hstep : Step cap effect s x s') :
    AtRest s'.table := by
  obtain ⟨a, m⟩ := x
  obtain ⟨hsent, e, hnext⟩ := hstep
  cases hsent with
  | create r inbox given =>
      obtain ⟨s₁, e₁, hcreate, hrest, -⟩ := createProcess_spec h a r inbox given
      cases hcreate.symm.trans hnext
      exact hrest
  | set op pout =>
      have hset := @set_spec _ _ _ effect _ hcap h a op pout
      rw [show s.set cap effect a (op.request cap) (op.message cap pout).files = _ from hnext] at hset
      cases hset with
      | answered s' hrest hattrs => exact hrest
      | silent s' hroom hrest hattrs => exact hrest

theorem reachable_atRest (hcap : cap.Lossless) (h : Transition.Reachable Initial (Step cap effect) s) : AtRest s.table :=
  h.invariant (fun _ => initial_atRest) fun _ _ _ hrest hstep => step_atRest hcap hrest hstep

/-- In every state that the supervisor may be in it has its streams and its socket
open and nothing else. No message of an actor ends it or changes its attributes, and
a process that is made starts with what is its own. A call that it is to repeat is
the one that the sender has made, is answered after it has had its effect, and leaves
the supervisor only if it fails. -/
theorem supervisor_rests (hcap : cap.Lossless) (hs : Transition.Reachable Initial (Step cap effect) s) :
    AtRest s.table ∧
    (∀ a r inbox given, ∃ s' e, s.handle cap effect a (r.message inbox given) = .next s' e ∧ AtRest s'.table ∧
      s'.attrs = s.attrs ∧ ∀ child pid replyTo, e = .created child pid replyTo → child.Starts s r inbox given ∧ replyTo = some inbox) ∧
    ∀ a op pout, Repeated effect s a op pout (s.handle cap effect a (op.message cap pout)) := by
  have hrest := reachable_atRest hcap hs
  refine ⟨hrest, ?_, ?_⟩
  · intro a r inbox given
    exact createProcess_spec hrest a r inbox given
  · intro a op pout
    exact set_spec hcap hrest a op pout

end

/-- A supervisor whose only attribute is its mask. -/
def umaskOf : Op Unit → UInt32 → UInt32
  | .umask mask, _ => mask
  | _, mask => mask

def plainCap : LibCap Unit := ⟨fun _ => [], fun _ => some ()⟩

def forked : FdTable File :=
  ((((⟨fun _ => none, 0, fun _ _ => rfl⟩ : FdTable File).put 0 ⟨.standard 0, false⟩).put 1 ⟨.standard 1, false⟩).put 2
    ⟨.standard 2, false⟩).put 4 ⟨.service, false⟩

def freshService : Service UInt32 :=
  ⟨(forked.put 3 ⟨.service, false⟩).closeFrom 4, ⟨some 0, some 0, some 0, some 0, false, false⟩, 0⟩

theorem plainCap_lossless : plainCap.Lossless := ⟨fun _ => rfl, fun _ => List.not_mem_nil⟩

theorem freshService_reachable : Transition.Reachable Initial (Step plainCap umaskOf) freshService := by
  refine ⟨freshService, ⟨forked, 4, freshService.globals, 0, ?_, rfl, rfl⟩, .refl⟩
  intro n hn
  obtain _ | _ | _ | n := n
  · rfl
  · rfl
  · rfl
  · omega

theorem supervisor_rests_umask : AtRest freshService.table ∧
    Repeated umaskOf freshService ⟨1, false, true, .ok 10⟩ (.umask 18) (.reply 0)
      (freshService.handle plainCap umaskOf ⟨1, false, true, .ok 10⟩ ((Op.umask 18).message plainCap (.reply 0))) :=
  have hrests := supervisor_rests plainCap_lossless freshService_reachable
  ⟨hrests.1, hrests.2.2 _ _ _⟩

end Emilua.Supervisor
