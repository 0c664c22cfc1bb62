import Emilua.Lib.Transition

/-!
The life of a child process as the handle of `system.spawn` shows it, and what is
expected of it on every system. Each system has a machine of its own; a view of a
machine's state has what can be seen of one child.
-/
namespace Emilua.Subprocess
open Transition Relation

abbrev Fiber := Nat

/-- A call of `wait` on the child `proc`. -/
structure Wait where
  id : Nat
  proc : Nat
  fiber : Fiber
deriving DecidableEq, Repr

/-- How a child ends. -/
inductive Exit where
  | exited (code : Nat)
  | signaled (signo : Nat)
deriving DecidableEq, Repr

/-- `exit_code`. -/
def Exit.code : Exit → Nat
  | .exited code => code
  | .signaled signo => 128 + signo

inductive Outcome where
  | exited
  | interrupted
deriving DecidableEq, Repr

/-- `asked` is a call of the interrupter; a wait is `ended` when it has been
decided how, and then its fiber is resumed. -/
inductive Event where
  | begun (w : Wait)
  | asked (w : Wait)
  | ended (w : Wait) (o : Outcome)
  | resumed (w : Wait) (o : Outcome)
  | signalled (proc : Nat)
  | reaped (proc : Nat)
deriving DecidableEq, Repr

/-- Why a step is not made: it is not possible now, a call raises an error, or
the behaviour of the program is undefined. -/
inductive Refusal where
  | disabled
  | noChildProcess
  | deviceOrResourceBusy
  | noSuchProcess
  | undefined
deriving DecidableEq, Repr

/-- The latest event is the first one of the log. -/
structure View where
  valid : Bool
  alive : Bool
  isOpen : Bool
  busy : Bool
  exitCode : Option Nat
  child : Option Exit
  waiting : List Wait
  log : List Event

def resumed (log : List Event) : List Wait :=
  log.filterMap fun
    | .resumed w _ => some w
    | _ => none

structure Lawful (p : Nat) (v : View) : Prop where
  once : (resumed v.log).Nodup
  kept : v.valid = true → ∀ w, .begun w ∈ v.log →
    (w ∈ resumed v.log ∧ w ∉ v.waiting) ∨ (w ∉ resumed v.log ∧ w ∈ v.waiting)
  waitable : v.valid = true → v.alive = true → (∀ w, w.proc = p → .ended w .exited ∉ v.log) →
    v.isOpen = true ∧ v.exitCode = none ∧
      (v.busy = true → ∃ w ∈ v.waiting, w.proc = p ∧ ∀ o, .ended w o ∉ v.log)
  code : ∀ c, v.exitCode = some c → ∃ w e, w.proc = p ∧ .ended w .exited ∈ v.log ∧
    v.child = some e ∧ c = e.code
  reaped : v.log.count (.reaped p) ≤ 1
  signals : ∀ pre post, v.log = post ++ .signalled p :: pre → .reaped p ∉ pre

/-- `runtime` has the steps that the system and the event loop make of themselves,
`procs` the numbers of the children. -/
structure Machine where
  State : Type
  Action : Type
  procs : Nat → Prop
  initial : State → Prop
  exec : State → Action → Except Refusal State
  runtime : Action → Bool
  view : State → Nat → View

namespace Machine
variable (m : Machine)

def Step (s : m.State) (a : m.Action) (s' : m.State) : Prop := m.exec s a = .ok s'

/-- A step of the runtime. -/
def Runs (s s' : m.State) : Prop := ∃ a, m.runtime a = true ∧ m.exec s a = .ok s'

/-- What is expected of a state: a fiber whose child has ended or that has been
interrupted is resumed when the runtime goes on. -/
structure Sound (s : m.State) : Prop where
  lawful : ∀ p, m.procs p → Lawful p (m.view s p)
  resumes : ∀ p, m.procs p → ∀ w ∈ (m.view s p).waiting, w.proc = p → (m.view s p).valid = true →
    ((m.view s p).child ≠ none ∨ .asked w ∈ (m.view s p).log) →
      ∃ s', ReflTransGen m.Runs s s' ∧ w ∈ resumed (m.view s' p).log
  defined : ∀ a, m.exec s a ≠ .error .undefined

end Machine

/-! Logs. -/

variable {log : List Event} {p : Nat}

theorem signals_nil (p : Nat) : ∀ pre post, [] = post ++ Event.signalled p :: pre → .reaped p ∉ pre := by
  intro pre post hsplit
  have hlen := congrArg List.length hsplit
  simp at hlen

theorem signals_cons {e : Event} (h : ∀ pre post, log = post ++ .signalled p :: pre → .reaped p ∉ pre)
    (hnew : e = .signalled p → .reaped p ∉ log) :
    ∀ pre post, e :: log = post ++ .signalled p :: pre → .reaped p ∉ pre := by
  intro pre post hsplit
  cases post with
  | nil =>
      obtain ⟨he, hlog⟩ := List.cons.inj hsplit
      rw [← hlog]
      exact hnew he
  | cons e' post => exact h pre post (List.cons.inj hsplit).2

/-- The log gets an event that is not the end of a wait. -/
theorem ended_cons {e : Event} (h : ∀ w o, e ≠ .ended w o) (w : Wait) (o : Outcome) :
    .ended w o ∈ e :: log ↔ .ended w o ∈ log := by
  rw [List.mem_cons]
  exact or_iff_right fun heq => h w o heq.symm

theorem count_reaped_cons {e : Event} (h : e ≠ .reaped p) :
    (e :: log).count (.reaped p) = log.count (.reaped p) :=
  List.count_cons_of_ne h

/-- The waits that have been begun, numbered from 0. -/
structure Numbered (log : List Event) (waiting : List Wait) (next : Nat) : Prop where
  fresh : ∀ w, .begun w ∈ log → w.id < next
  earlier : ∀ w ∈ resumed log, .begun w ∈ log
  unresumed : ∀ w ∈ waiting, .begun w ∈ log ∧ w ∉ resumed log
  once : (resumed log).Nodup
  kept : ∀ w, .begun w ∈ log → w ∈ resumed log ∨ w ∈ waiting

variable {waiting : List Wait} {next : Nat}

theorem Numbered.begin (h : Numbered log waiting next) (p f : Nat) :
    Numbered (.begun ⟨next, p, f⟩ :: log) (⟨next, p, f⟩ :: waiting) (next + 1) where
  fresh w hw := by
    rcases List.mem_cons.mp hw with heq | hw
    · rw [Event.begun.inj heq]
      exact Nat.lt_succ_self _
    · exact Nat.lt_succ_of_lt (h.fresh w hw)
  earlier w hw := List.mem_cons_of_mem _ (h.earlier w hw)
  unresumed w hw := by
    rcases List.mem_cons.mp hw with rfl | hw
    · exact ⟨List.mem_cons_self .., fun hr => Nat.lt_irrefl _ (h.fresh _ (h.earlier _ hr))⟩
    · exact ⟨List.mem_cons_of_mem _ (h.unresumed w hw).1, (h.unresumed w hw).2⟩
  once := h.once
  kept w hw := by
    rcases List.mem_cons.mp hw with heq | hw
    · rw [Event.begun.inj heq]
      exact .inr (List.mem_cons_self ..)
    · exact (h.kept w hw).imp_right (List.mem_cons_of_mem _)

/-- Events that neither begin a wait nor resume a fiber. -/
theorem Numbered.silent (h : Numbered log waiting next) {e : Event} (hbegun : ∀ w, e ≠ .begun w)
    (hresumed : ∀ w o, e ≠ .resumed w o) : Numbered (e :: log) waiting next := by
  have hsame : resumed (e :: log) = resumed log := by
    cases e with
    | resumed w o => exact absurd rfl (hresumed w o)
    | begun | asked | ended | signalled | reaped => rfl
  have hold : ∀ w, .begun w ∈ e :: log ↔ .begun w ∈ log := by
    intro w
    rw [List.mem_cons]
    exact or_iff_right fun heq => hbegun w heq.symm
  refine ⟨fun w hw => h.fresh w ((hold w).mp hw), fun w hw => ?_, fun w hw => ?_, ?_, fun w hw => ?_⟩
  · rw [hsame] at hw
    exact (hold w).mpr (h.earlier w hw)
  · rw [hsame, hold]
    exact h.unresumed w hw
  · rw [hsame]
    exact h.once
  · rw [hsame]
    exact h.kept w ((hold w).mp hw)

/-- A fiber that waits is resumed. -/
theorem Numbered.resume (h : Numbered log waiting next) {w : Wait} (hin : w ∈ waiting) (hnodup : waiting.Nodup)
    (o : Outcome) : Numbered (.resumed w o :: log) (waiting.erase w) next where
  fresh w' hw' := by
    rcases List.mem_cons.mp hw' with heq | hw'
    · cases heq
    · exact h.fresh w' hw'
  earlier w' hw' := by
    rcases List.mem_cons.mp hw' with rfl | hw'
    · exact List.mem_cons_of_mem _ (h.unresumed _ hin).1
    · exact List.mem_cons_of_mem _ (h.earlier w' hw')
  unresumed w' hw' := by
    obtain ⟨hne, hw'⟩ := hnodup.mem_erase_iff.mp hw'
    obtain ⟨hbegun, hnot⟩ := h.unresumed w' hw'
    refine ⟨List.mem_cons_of_mem _ hbegun, fun hr => ?_⟩
    rcases List.mem_cons.mp hr with heq | hr
    · exact hne heq
    · exact hnot hr
  once := List.nodup_cons.mpr ⟨(h.unresumed w hin).2, h.once⟩
  kept w' hw' := by
    rcases List.mem_cons.mp hw' with heq | hw'
    · cases heq
    · by_cases heq : w' = w
      · rw [heq]
        exact .inl (List.mem_cons_self ..)
      · refine (h.kept w' hw').imp (List.mem_cons_of_mem _) fun hin' => ?_
        exact hnodup.mem_erase_iff.mpr ⟨heq, hin'⟩

theorem Numbered.exclusive (h : Numbered log waiting next) (w : Wait) (hw : .begun w ∈ log) :
    (w ∈ resumed log ∧ w ∉ waiting) ∨ (w ∉ resumed log ∧ w ∈ waiting) := by
  rcases h.kept w hw with hr | hin
  · exact .inl ⟨hr, fun hin => (h.unresumed w hin).2 hr⟩
  · exact .inr ⟨(h.unresumed w hin).2, hin⟩

/-- The log of a machine with one child whose fibers are resumed as soon as their
waits have ended. -/
structure Story (valid : Bool) (waiting : List Wait) (next : Nat) (log : List Event) : Prop where
  numbered : valid = true → Numbered log waiting next
  once : (resumed log).Nodup
  signals : ∀ pre post, log = post ++ .signalled 0 :: pre → .reaped 0 ∉ pre
  named : ∀ w, .begun w ∈ log → w.proc = 0
  decided : ∀ w o, .ended w o ∈ log → w ∈ resumed log
  asked : ∀ w, .asked w ∈ log → .begun w ∈ log

variable {valid : Bool}

theorem Story.empty (valid : Bool) : Story valid [] 0 [] where
  numbered _ := ⟨nofun, nofun, nofun, List.nodup_nil, nofun⟩
  once := List.nodup_nil
  signals := signals_nil 0
  named := nofun
  decided := nofun
  asked := nofun

theorem Story.begin (h : Story valid waiting next log) (hvalid : valid = true) (f : Fiber) :
    Story valid (⟨next, 0, f⟩ :: waiting) (next + 1) (.begun ⟨next, 0, f⟩ :: log) where
  numbered _ := (h.numbered hvalid).begin 0 f
  once := h.once
  signals := signals_cons h.signals nofun
  named w hin := by
    rcases List.mem_cons.mp hin with heq | hin
    · rw [Event.begun.inj heq]
    · exact h.named w hin
  decided w o hin := by
    rcases List.mem_cons.mp hin with heq | hin
    · cases heq
    · exact h.decided w o hin
  asked w hin := by
    rcases List.mem_cons.mp hin with heq | hin
    · cases heq
    · exact List.mem_cons_of_mem _ (h.asked w hin)

/-- An event that is neither the beginning nor the end of a wait. -/
theorem Story.event (h : Story valid waiting next log) {e : Event} (hbegun : ∀ w, e ≠ .begun w)
    (hresumed : ∀ w o, e ≠ .resumed w o) (hended : ∀ w o, e ≠ .ended w o)
    (hasked : ∀ w, e = .asked w → .begun w ∈ log) (hsignalled : e = .signalled 0 → .reaped 0 ∉ log) :
    Story valid waiting next (e :: log) := by
  have hsame : resumed (e :: log) = resumed log := by
    cases e with
    | resumed w o => exact absurd rfl (hresumed w o)
    | begun | asked | ended | signalled | reaped => rfl
  refine ⟨fun hvalid => (h.numbered hvalid).silent hbegun hresumed, ?_, signals_cons h.signals hsignalled,
    fun w hin => ?_, fun w o hin => ?_, fun w hin => ?_⟩
  · rw [hsame]
    exact h.once
  · rcases List.mem_cons.mp hin with heq | hin
    · exact absurd heq.symm (hbegun w)
    · exact h.named w hin
  · rw [hsame]
    rcases List.mem_cons.mp hin with heq | hin
    · exact absurd heq.symm (hended w o)
    · exact h.decided w o hin
  · rcases List.mem_cons.mp hin with heq | hin
    · exact List.mem_cons_of_mem _ (hasked w heq.symm)
    · exact List.mem_cons_of_mem _ (h.asked w hin)

/-- The wait of a fiber ends, and the fiber is resumed. -/
theorem Story.resume (h : Story valid waiting next log) (hvalid : valid = true) {w : Wait} (hin : w ∈ waiting)
    (hnodup : waiting.Nodup) (o : Outcome) :
    Story valid (waiting.erase w) next (.resumed w o :: .ended w o :: log) := by
  have hnumbered := ((h.numbered hvalid).silent (e := .ended w o) nofun nofun).resume hin hnodup o
  refine ⟨fun _ => hnumbered, hnumbered.once, signals_cons (signals_cons h.signals nofun) nofun,
    fun w' hin' => ?_, fun w' o' hin' => ?_, fun w' hin' => ?_⟩
  · rcases List.mem_cons.mp hin' with heq | hin'
    · cases heq
    · rcases List.mem_cons.mp hin' with heq | hin'
      · cases heq
      · exact h.named w' hin'
  · rcases List.mem_cons.mp hin' with heq | hin'
    · cases heq
    · rcases List.mem_cons.mp hin' with heq | hin'
      · rw [(Event.ended.inj heq).1]
        exact List.mem_cons_self ..
      · exact List.mem_cons_of_mem _ (h.decided w' o' hin')
  · rcases List.mem_cons.mp hin' with heq | hin'
    · cases heq
    · rcases List.mem_cons.mp hin' with heq | hin'
      · cases heq
      · exact List.mem_cons_of_mem _ (List.mem_cons_of_mem _ (h.asked w' hin'))

theorem Story.close (h : Story valid waiting next log) : Story false [] next log :=
  ⟨nofun, h.once, h.signals, h.named, h.decided, h.asked⟩

/-- A fiber that waits does so on the one child, and its wait has not ended. -/
theorem Story.undecided (h : Story valid waiting next log) (hvalid : valid = true) {w : Wait} (hin : w ∈ waiting) :
    .begun w ∈ log ∧ w.proc = 0 ∧ ∀ o, .ended w o ∉ log := by
  obtain ⟨hbegun, hnot⟩ := (h.numbered hvalid).unresumed w hin
  exact ⟨hbegun, h.named w hbegun, fun o hended => hnot (h.decided w o hended)⟩

end Emilua.Subprocess
