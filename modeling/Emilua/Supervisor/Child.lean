import Emilua.Supervisor.Service

/-!
A new process up to its first message: what it makes of the descriptors that it
starts with.
-/
namespace Emilua.Supervisor

/-- The calls after which `child_main` may end. -/
inductive ChildCall where
  | pipe (stream : Nat)
  | dup2 (fd : Nat)
  | setCloexec
  | closeRange
deriving DecidableEq, Repr

section
variable (fails : ChildCall → Bool)

/-- A system call; the process ends if it fails. -/
def call (c : ChildCall) (run : Option (FdTable File)) : Option (FdTable File) := if fails c then none else run

/-- A stream that is closed for the actor is an end of a pipe, whose other end nobody keeps. -/
def redirect (stream : Nat) (proc : Option Nat) (t : FdTable File) : Option (FdTable File) :=
  match proc with
  | none =>
      let made := t.pipe (.pipe stream false) (.pipe stream true)
      call fails (.pipe stream) (call fails (.dup2 stream) (made.1.dup2 (if stream = 0 then made.2.1 else made.2.2) stream))
  | some n => if n = stream then some t else call fails (.dup2 stream) (t.dup2 n stream)

/-- `inboxfd` is at 3 afterwards, and not inherited. -/
def moveInbox (inboxfd : Option Nat) (t : FdTable File) : Option (FdTable File) := do
  let n ← inboxfd
  let t ← call fails (.dup2 3) (t.dup2 n 3)
  let t ← call fails .setCloexec (t.setCloexec 3)
  call fails .closeRange (some (t.closeFrom 4))

def childMain (g : Globals) (t : FdTable File) : Option (FdTable File) := do
  let t ← redirect fails 0 g.procStdin t
  let t ← redirect fails 1 g.procStdout t
  let t ← redirect fails 2 g.procStderr t
  moveInbox fails g.inboxfd t

end

/-- What an actor gets for a stream. -/
def streamFile (stream : Nat) (action : Action) (given : File) : File :=
  match action with
  | .closeFd => .pipe stream (stream ≠ 0)
  | .shareParent => .standard stream
  | .usePipe => given

/-- What an actor has open when it reads its first message. -/
def actorFile (r : CreateProcess) (inbox : File) (given : Nat → File) : Nat → Option File
  | 0 => some (streamFile 0 r.stdinAction (given 0))
  | 1 => some (streamFile 1 r.stdoutAction (given 1))
  | 2 => some (streamFile 2 r.stderrAction (given 2))
  | 3 => some inbox
  | _ => none

section
variable {fails : ChildCall → Bool} {t t' : FdTable File} {stream n : Nat} {file : File} {action : Action} {proc : Option Nat}

/-- Everything else that was open is as it was. -/
def Keeps (stream : Nat) (t t' : FdTable File) : Prop := ∀ m, m ≠ stream → t.entry m ≠ none → t'.entry m = t.entry m

theorem file_kept (h : Keeps stream t t') (hne : n ≠ stream) (hfile : t.file n = some file) : t'.file n = some file := by
  have hopen : t.entry n ≠ none := by
    apply FdTable.file_ne_none.mp
    rw [hfile]
    exact Option.some_ne_none file
  exact (FdTable.file_congr (h n hne hopen)).trans hfile

theorem Wanted.keep {other : Nat} (hw : Wanted t stream file action proc) (h : Keeps other t t') (hother : other < 4) :
    Wanted t' stream file action proc := by
  cases hw with
  | closeFd => exact .closeFd
  | shareParent => exact .shareParent
  | usePipe n hn hfile => exact .usePipe n hn (file_kept h (by omega) hfile)

theorem dup2_keeps {src : Nat} (hfile : t.file src = some file) :
    ∃ t', t.dup2 src stream = some t' ∧ t'.file stream = some file ∧ Keeps stream t t' := by
  obtain ⟨t', hdup, hdst, hother⟩ := FdTable.dup2_of_open stream hfile
  exact ⟨t', hdup, hdst, fun m hm _ => hother m hm⟩

/-- A part of `child_main` that comes to its end with `post`, unless one of its calls fails of itself. -/
def Does (fails : ChildCall → Bool) (run : Option (FdTable File)) (post : FdTable File → Prop) : Prop :=
  (∃ t, run = some t ∧ post t) ∨ run = none ∧ ∃ c, fails c = true

theorem Does.bind {run : Option (FdTable File)} {more : FdTable File → Option (FdTable File)} {P Q : FdTable File → Prop}
    (h : Does fails run P) (hmore : ∀ t, P t → Does fails (more t) Q) : Does fails (run.bind more) Q := by
  rcases h with ⟨t, hrun, ht⟩ | ⟨hrun, hfails⟩
  · rw [hrun]
    exact hmore t ht
  · rw [hrun]
    exact .inr ⟨rfl, hfails⟩

theorem Does.call {c : ChildCall} {run : Option (FdTable File)} {P : FdTable File → Prop} (h : Does fails run P) :
    Does fails (Supervisor.call fails c run) P := by
  rw [Supervisor.call]
  by_cases hc : fails c = true
  · rw [if_pos hc]
    exact .inr ⟨rfl, c, hc⟩
  · rw [if_neg hc]
    exact h

theorem redirect_does (hw : Wanted t stream file action proc) (hstd : t.file stream = some (.standard stream)) (hstream : stream < 4) :
    Does fails (redirect fails stream proc t) fun t' => t'.file stream = some (streamFile stream action file) ∧ Keeps stream t t' := by
  cases hw with
  | shareParent => exact .inl ⟨t, if_pos rfl, hstd, fun _ _ _ => rfl⟩
  | usePipe n hn hfile =>
      obtain ⟨t', hdup, hdst, hkeeps⟩ := @dup2_keeps _ stream _ _ hfile
      rw [redirect, if_neg (by omega), hdup]
      exact .call (.inl ⟨t', rfl, hdst, hkeeps⟩)
  | closeFd =>
      obtain ⟨hread, hwrite, hother⟩ := t.pipe_spec (.pipe stream false) (.pipe stream true)
      rw [redirect]
      generalize t.pipe (.pipe stream false) (.pipe stream true) = made at hread hwrite hother
      have hend : made.1.file (if stream = 0 then made.2.1 else made.2.2) = some (.pipe stream (stream ≠ 0)) := by
        by_cases hzero : stream = 0
        · rw [if_pos hzero, hread, hzero]
          rfl
        · rw [if_neg hzero, hwrite, decide_eq_true hzero]
      obtain ⟨t', hdup, hdst, hkeeps⟩ := @dup2_keeps _ stream _ _ hend
      rw [hdup]
      refine .call (.call (.inl ⟨t', rfl, hdst, fun m hm hopen => ?_⟩))
      have hsame := hother m hopen
      rw [hkeeps m hm (by rw [hsame]; exact hopen), hsame]

theorem moveInbox_does {inbox : File} (hinbox : t.file n = some inbox) :
    Does fails (moveInbox fails (some n) t) fun t' =>
      t'.entry 3 = some ⟨inbox, true⟩ ∧ (∀ m < 3, t'.entry m = t.entry m) ∧ ∀ m, 4 ≤ m → t'.entry m = none := by
  obtain ⟨t₁, hdup, hdst, hother₁⟩ := FdTable.dup2_of_open 3 hinbox
  obtain ⟨t₂, hmark, hmarked, hother₂⟩ := FdTable.setCloexec_of_open hdst
  have hdoes₁ : Does fails (call fails (.dup2 3) (t.dup2 n 3)) (· = t₁) := .call (.inl ⟨t₁, hdup, rfl⟩)
  have hrun : moveInbox fails (some n) t = (call fails (.dup2 3) (t.dup2 n 3)).bind fun t =>
      (call fails .setCloexec (t.setCloexec 3)).bind fun t => call fails .closeRange (some (t.closeFrom 4)) := rfl
  rw [hrun]
  refine hdoes₁.bind fun t ht => ?_
  have hdoes₂ : Does fails (call fails .setCloexec (t.setCloexec 3)) (· = t₂) := by
    rw [ht]
    exact .call (.inl ⟨t₂, hmark, rfl⟩)
  refine hdoes₂.bind fun t ht => ?_
  refine .call (.inl ⟨_, rfl, ?_, ?_, ?_⟩)
  · rw [ht, FdTable.entry_closeFrom, if_neg (by omega), hmarked]
  · intro m hm
    rw [ht, FdTable.entry_closeFrom, if_neg (by omega), hother₂ m (by omega), hother₁ m (by omega)]
  · intro m hm
    rw [FdTable.entry_closeFrom, if_pos hm]

variable {A C : Type} {cap : LibCap C} {effect : Op C → A → A} {s : Service A} {child : Child A} {r : CreateProcess} {inbox : File}
  {given : Nat → File}

theorem childMain_does (h : child.Starts s r inbox given) :
    Does fails (childMain fails child.globals child.table) fun t =>
      (∀ n, t.file n = actorFile r inbox given n) ∧ t.entry 3 = some ⟨inbox, true⟩ := by
  obtain ⟨i, hi, hnumber, hinbox⟩ := h.inboxed
  have hstd : ∀ n < 3, child.table.file n = some (.standard n) := fun n hn => (h.rest n (by omega)).trans (if_pos hn)
  rw [childMain, hnumber]
  refine (redirect_does h.stdin (hstd 0 (by omega)) (by omega)).bind fun t₁ h₁ => ?_
  obtain ⟨hfile₀, hkeeps₀⟩ := h₁
  have hstd₁ := file_kept hkeeps₀ (by omega) (hstd 1 (by omega))
  refine (redirect_does (h.stdout.keep hkeeps₀ (by omega)) hstd₁ (by omega)).bind fun t₂ h₂ => ?_
  obtain ⟨hfile₁, hkeeps₁⟩ := h₂
  have hstd₂ := file_kept hkeeps₁ (by omega) (file_kept hkeeps₀ (by omega) (hstd 2 (by omega)))
  have hwant := (h.stderr.keep hkeeps₀ (by omega)).keep hkeeps₁ (by omega)
  refine (redirect_does hwant hstd₂ (by omega)).bind fun t₃ h₃ => ?_
  obtain ⟨hfile₂, hkeeps₂⟩ := h₃
  have hinbox₃ := file_kept hkeeps₂ (by omega) (file_kept hkeeps₁ (by omega) (file_kept hkeeps₀ (by omega) hinbox))
  refine (moveInbox_does hinbox₃).imp (fun hdone => ?_) id
  obtain ⟨t, hrun, hthree, hstreams, hclosed⟩ := hdone
  refine ⟨t, hrun, fun n => ?_, hthree⟩
  obtain _ | _ | _ | _ | n := n
  · exact (FdTable.file_congr (hstreams 0 (by omega))).trans (file_kept hkeeps₂ (by omega) (file_kept hkeeps₁ (by omega) hfile₀))
  · exact (FdTable.file_congr (hstreams 1 (by omega))).trans (file_kept hkeeps₂ (by omega) hfile₁)
  · exact (FdTable.file_congr (hstreams 2 (by omega))).trans hfile₂
  · rw [FdTable.file, hthree]
    rfl
  · exact FdTable.file_eq_none_iff.mpr (hclosed (n + 4) (by omega))

/-- A process that is made for an actor, in any state that the supervisor may be in,
has the supervisor's attributes, and what it has open when it reads its first
message is the three streams as the actor chose them and its inbox, which is not
inherited. It gets there unless a call fails; and it is made if there is room for
what came and `clone` succeeds. -/
theorem actor_descriptors (hcap : cap.Lossless) (hs : Transition.Reachable Initial (Step cap effect) s) (a : Answers)
    (r : CreateProcess) (inbox : File) (given : Nat → File) :
    (∀ s' child pid replyTo, s.handle cap effect a (r.message inbox given) = .next s' (.created child pid replyTo) →
      replyTo = some inbox ∧ child.attrs = s.attrs ∧ ∀ fails,
        (∃ t, childMain fails child.globals child.table = some t ∧ (∀ n, t.file n = actorFile r inbox given n) ∧
          t.entry 3 = some ⟨inbox, true⟩) ∨
        childMain fails child.globals child.table = none ∧ ∃ c, fails c = true) ∧
    ((r.message inbox given).files.length ≤ a.room → ∀ pid, a.clone = .ok pid →
      ∃ s' child replyTo, s.handle cap effect a (r.message inbox given) = .next s' (.created child pid replyTo)) := by
  have hrest := reachable_atRest hcap hs
  constructor
  · intro s' child pid replyTo hnext
    obtain ⟨s₁, e, hcreate, -, -, hcreated⟩ := createProcess_spec hrest a r inbox given
    cases hcreate.symm.trans hnext
    obtain ⟨hstarts, hreply⟩ := hcreated child pid replyTo rfl
    exact ⟨hreply, hstarts.attrs, fun fails => childMain_does hstarts⟩
  · intro hroom pid hclone
    exact createProcess_made hroom hclone

end

theorem actor_descriptors_fresh : ∃ s' child replyTo,
    freshService.handle plainCap umaskOf ⟨4, false, false, .ok 10⟩
      (CreateProcess.message ⟨0, .usePipe, .closeFd, .shareParent, false, false⟩ (.channel 0 false) .given) =
        .next s' (.created child 10 replyTo) ∧
    ∃ t, childMain (fun _ => false) child.globals child.table = some t ∧ t.file 0 = some (.given 0) ∧
      t.file 1 = some (.pipe 1 true) ∧ t.file 2 = some (.standard 2) ∧ t.file 3 = some (.channel 0 false) ∧ t.file 4 = none := by
  obtain ⟨hdescriptors, hmade⟩ := actor_descriptors plainCap_lossless freshService_reachable ⟨4, false, false, .ok 10⟩
    ⟨0, .usePipe, .closeFd, .shareParent, false, false⟩ (.channel 0 false) .given
  obtain ⟨s', child, replyTo, hnext⟩ := hmade (by decide) 10 rfl
  refine ⟨s', child, replyTo, hnext, ?_⟩
  rcases (hdescriptors s' child 10 replyTo hnext).2.2 fun _ => false with ⟨t, hrun, hfiles, -⟩ | ⟨-, c, hc⟩
  · exact ⟨t, hrun, hfiles 0, hfiles 1, hfiles 2, hfiles 3, hfiles 4⟩
  · cases hc

end Emilua.Supervisor
