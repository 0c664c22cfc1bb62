import Emilua.Subprocess.Lifecycle

/-!
`subprocess` on Windows: an `object_handle` for the child, waited for with a
cancellation slot.
-/
namespace Emilua.Subprocess.Windows
open Transition Relation

/-- `subprocess`. -/
structure Handle where
  isOpen : Bool
  waitInProgress : Bool
  status : Option Nat
deriving DecidableEq, Repr

/-- A handler that is `ready` has been given `operation_aborted`, if it is marked.
`interrupters` has the waits whose fiber has an interrupter. -/
structure State where
  valid : Bool
  child : Option Exit
  handle : Option Handle
  registered : List Wait
  ready : List (Wait × Bool)
  waiters : List Wait
  interrupters : List Wait
  next : Nat
  log : List Event
deriving DecidableEq, Repr

def State.start : State := ⟨true, none, some ⟨true, false, none⟩, [], [], [], [], 0, []⟩

inductive Action where
  | wait (f : Fiber) (interruptible : Bool)
  | interrupt (f : Fiber)
  | kill
  | exit (e : Exit)
  | complete (w : Wait)
  | run (w : Wait) (aborted : Bool)
  | collect
  | close
deriving DecidableEq, Repr

def STILL_ACTIVE : Nat := 259

/-- `GetExitCodeProcess`. -/
def exitCodeProcess : Option Exit → Nat
  | some e => e.code
  | none => STILL_ACTIVE

namespace State

def subprocessWait (s : State) (h : Handle) (f : Fiber) (interruptible : Bool) : Except Refusal State :=
  if h.isOpen = false then .error .noChildProcess
  else if h.waitInProgress then .error .deviceOrResourceBusy
  else
    let w : Wait := ⟨s.next, 0, f⟩
    .ok { s with
      handle := some { h with waitInProgress := true }
      registered := s.registered ++ [w]
      waiters := w :: s.waiters
      interrupters := if interruptible then w :: s.interrupters else s.interrupters
      next := s.next + 1
      log := .begun w :: s.log }

/-- The interrupter emits a signal to the slot of the wait. -/
def interrupt (s : State) (w : Wait) : State :=
  { s with
    registered := s.registered.erase w
    ready := if w ∈ s.registered then s.ready ++ [(w, true)] else s.ready
    interrupters := s.interrupters.erase w
    log := .asked w :: s.log }

def subprocessKill (s : State) (h : Handle) : Except Refusal State :=
  if h.isOpen = false then .error .noSuchProcess
  else .ok { s with log := .signalled 0 :: s.log }

/-- `fiber_resume`, which clears the interrupter. -/
def resume (s : State) (w : Wait) (o : Outcome) : State :=
  { s with
    waiters := s.waiters.erase w
    interrupters := s.interrupters.erase w
    log := .resumed w o :: s.log }

/-- The handler of `subprocess_wait`. -/
def onWait (s : State) (w : Wait) (aborted : Bool) : Except Refusal State :=
  if s.valid = false then .ok s
  else
    match s.handle with
    | none => .error .undefined
    | some _ =>
        let o : Outcome := if aborted then .interrupted else .exited
        .ok ({ s with
          handle := some ⟨false, false, some (exitCodeProcess s.child)⟩
          log := .ended w o :: .reaped 0 :: s.log }.resume w o)

/-- The destructor of `object_handle`. -/
def destroy (s : State) : State :=
  { s with
    handle := none
    registered := []
    ready := s.ready ++ s.registered.map fun w => (w, true)
    log := if s.handle.any Handle.isOpen then .reaped 0 :: s.log else s.log }

end State

def exec (s : State) : Action → Except Refusal State
  | .wait f interruptible =>
      match s.handle with
      | some h =>
          if s.valid ∧ ∀ w ∈ s.waiters, w.fiber ≠ f then s.subprocessWait h f interruptible
          else .error .disabled
      | none => .error .disabled
  | .interrupt f =>
      match s.interrupters.find? (·.fiber == f) with
      | some w => .ok (s.interrupt w)
      | none => .error .disabled
  | .kill =>
      match s.handle with
      | some h => if s.valid then s.subprocessKill h else .error .disabled
      | none => .error .disabled
  | .exit e => if s.child = none then .ok { s with child := some e } else .error .disabled
  | .complete w =>
      if s.child ≠ none ∧ w ∈ s.registered then
        .ok { s with registered := s.registered.erase w, ready := s.ready ++ [(w, false)] }
      else .error .disabled
  | .run w aborted =>
      if (w, aborted) ∈ s.ready then
        { s with ready := s.ready.erase (w, aborted) }.onWait w aborted
      else .error .disabled
  | .collect =>
      if s.valid ∧ s.handle ≠ none ∧ s.waiters = [] then .ok s.destroy else .error .disabled
  | .close =>
      if s.valid then .ok { s.destroy with valid := false, waiters := [], interrupters := [] }
      else .error .disabled

def machine : Machine where
  State := State
  Action := Action
  procs p := p = 0
  initial s := s = .start
  exec := exec
  runtime
    | .complete _ | .run _ _ => true
    | _ => false
  view s _ :=
    { valid := s.valid
      alive := s.handle.isSome
      isOpen := s.handle.any Handle.isOpen
      busy := s.handle.any Handle.waitInProgress
      exitCode := s.handle.bind Handle.status
      child := s.child
      waiting := s.waiters
      log := s.log }

/-- A fiber is interrupted only when the child has ended its wait already. -/
def harmless (s : State) : Action → Bool
  | .interrupt f => (s.interrupters.find? (·.fiber == f)).all fun w => w ∉ s.registered
  | _ => true

/-! What holds in every run without other interruptions. -/

/-- The handle, while there is a wait or none. -/
inductive Phase (s : State) : Prop where
  | idle (h : Handle) (hhandle : s.handle = some h) (hfree : h.waitInProgress = false) (hwaiters : s.waiters = [])
      (hinterrupters : s.interrupters = []) (hregistered : s.registered = []) (hready : s.ready = [])
  | waiting (w : Wait) (hhandle : s.handle = some ⟨true, true, none⟩) (hwaiters : s.waiters = [w])
      (hinterrupters : s.interrupters = [w] ∨ s.interrupters = []) (hregistered : s.registered = [w])
      (hready : s.ready = []) (hasked : .asked w ∉ s.log)
  | finishing (w : Wait) (hhandle : s.handle = some ⟨true, true, none⟩) (hwaiters : s.waiters = [w])
      (hinterrupters : s.interrupters = [w] ∨ s.interrupters = []) (hregistered : s.registered = [])
      (hready : s.ready = [(w, false)]) (hchild : s.child ≠ none)
  | collected (hhandle : s.handle = none) (hwaiters : s.waiters = []) (hinterrupters : s.interrupters = [])
      (hregistered : s.registered = []) (hready : s.ready = [])

structure Inv (s : State) : Prop where
  phase : s.valid = true → Phase s
  story : Story s.valid s.waiters s.next s.log
  closed : s.valid = false → s.handle = none ∧ s.waiters = [] ∧ s.interrupters = []
  licence : (if s.handle.any Handle.isOpen then 1 else 0) + s.log.count (.reaped 0) ≤ 1
  known : ∀ h, s.handle = some h → h.isOpen = true → h.status = none ∧ ∀ w, .ended w .exited ∉ s.log
  gone : ∀ h, s.handle = some h → h.isOpen = false →
    ∃ w e, w.proc = 0 ∧ .ended w .exited ∈ s.log ∧ s.child = some e ∧ h.status = some e.code

variable {s s' : State}

theorem Inv.start : Inv .start where
  phase _ := .idle ⟨true, false, none⟩ rfl rfl rfl rfl rfl rfl
  story := .empty true
  closed := nofun
  licence := Nat.le_refl _
  known h hh _ := by
    cases hh
    exact ⟨rfl, nofun⟩
  gone h hh hopen := by
    cases hh
    cases hopen

/-- A step that leaves the handle alone. -/
theorem Inv.of_same (h : Inv s) (hphase : s'.valid = true → Phase s')
    (hstory : Story s'.valid s'.waiters s'.next s'.log) (hvalid : s'.valid = s.valid)
    (hhandle : s'.handle = s.handle) (hchild : s.child ≠ none → s'.child = s.child)
    (hclosed : s.waiters = [] → s.interrupters = [] → s'.waiters = [] ∧ s'.interrupters = [])
    (hended : ∀ w o, .ended w o ∈ s'.log ↔ .ended w o ∈ s.log)
    (hreaped : s'.log.count (.reaped 0) = s.log.count (.reaped 0)) : Inv s' where
  phase := hphase
  story := hstory
  closed hs := by
    obtain ⟨hnone, hempty, hnobody⟩ := h.closed (hvalid ▸ hs)
    exact ⟨hhandle.trans hnone, hclosed hempty hnobody⟩
  licence := by
    rw [hhandle, hreaped]
    exact h.licence
  known hd hh hopen := by
    obtain ⟨hstatus, hnot⟩ := h.known hd (hhandle ▸ hh) hopen
    exact ⟨hstatus, fun w hin => hnot w ((hended w _).mp hin)⟩
  gone hd hh hopen := by
    obtain ⟨w, e', hproc, hin, he', hstatus⟩ := h.gone hd (hhandle ▸ hh) hopen
    refine ⟨w, e', hproc, (hended w _).mpr hin, ?_, hstatus⟩
    rw [hchild, he']
    rw [he']
    exact Option.some_ne_none e'

/-- While the handle is open, it has not been closed. -/
theorem Inv.unreaped (h : Inv s) {hd : Handle} (hhandle : s.handle = some hd) (hopen : hd.isOpen = true) :
    .reaped 0 ∉ s.log := by
  intro hin
  have hcount := List.count_pos_iff.mpr hin
  have hlicence := h.licence
  rw [hhandle, Option.any_some, hopen, if_pos rfl] at hlicence
  omega

theorem Inv.kill (h : Inv s) {hd : Handle} (hhandle : s.handle = some hd) (hopen : hd.isOpen = true) :
    Inv { s with log := .signalled 0 :: s.log } := by
  refine h.of_same (fun hvalid => ?_) (h.story.event nofun nofun nofun nofun fun _ => h.unreaped hhandle hopen)
    rfl rfl (fun _ => rfl) .intro (ended_cons nofun) (count_reaped_cons nofun)
  cases h.phase hvalid with
  | idle hd hhandle hfree hwaiters hinterrupters hregistered hready =>
      exact .idle hd hhandle hfree hwaiters hinterrupters hregistered hready
  | waiting w hhandle hwaiters hinterrupters hregistered hready hasked =>
      refine .waiting w hhandle hwaiters hinterrupters hregistered hready fun hin => ?_
      rcases List.mem_cons.mp hin with heq | hin
      · cases heq
      · exact hasked hin
  | finishing w hhandle hwaiters hinterrupters hregistered hready hchild =>
      exact .finishing w hhandle hwaiters hinterrupters hregistered hready hchild
  | collected hhandle hwaiters hinterrupters hregistered hready =>
      exact .collected hhandle hwaiters hinterrupters hregistered hready

theorem Inv.exit (h : Inv s) (e : Exit) (hchild : s.child = none) : Inv { s with child := some e } := by
  refine h.of_same (fun hvalid => ?_) h.story rfl rfl (fun hsome => absurd hchild hsome) .intro (fun _ _ => .rfl) rfl
  cases h.phase hvalid with
  | idle hd hhandle hfree hwaiters hinterrupters hregistered hready =>
      exact .idle hd hhandle hfree hwaiters hinterrupters hregistered hready
  | waiting w hhandle hwaiters hinterrupters hregistered hready hasked =>
      exact .waiting w hhandle hwaiters hinterrupters hregistered hready hasked
  | finishing w hhandle hwaiters hinterrupters hregistered hready _ =>
      exact .finishing w hhandle hwaiters hinterrupters hregistered hready nofun
  | collected hhandle hwaiters hinterrupters hregistered hready =>
      exact .collected hhandle hwaiters hinterrupters hregistered hready

theorem Inv.wait (h : Inv s) {hd : Handle} {f : Fiber} {interruptible : Bool} (hvalid : s.valid = true)
    (hhandle : s.handle = some hd) (hexec : s.subprocessWait hd f interruptible = .ok s') : Inv s' := by
  unfold State.subprocessWait at hexec
  split at hexec
  · cases hexec
  rename_i hopen
  split at hexec
  · cases hexec
  rename_i hfree
  cases hexec
  obtain ⟨hstatus, hnot⟩ := h.known hd hhandle (by simpa using hopen)
  have hhd : ({ hd with waitInProgress := true } : Handle) = ⟨true, true, none⟩ := by
    rw [← hstatus, ← (by simpa using hopen : hd.isOpen = true)]
  obtain ⟨hwaiters, hinterrupters, hregistered, hready⟩ :
      s.waiters = [] ∧ s.interrupters = [] ∧ s.registered = [] ∧ s.ready = [] := by
    cases h.phase hvalid with
    | idle h hhandle hfree hwaiters hinterrupters hregistered hready =>
        exact ⟨hwaiters, hinterrupters, hregistered, hready⟩
    | waiting w hhandle' | finishing w hhandle' =>
        rw [hhandle] at hhandle'
        rw [Option.some.inj hhandle'] at hfree
        exact absurd rfl hfree
    | collected hhandle' =>
        rw [hhandle] at hhandle'
        cases hhandle'
  refine ⟨fun _ => ?_, h.story.begin hvalid f, ?_, ?_, ?_, ?_⟩
  · refine .waiting ⟨s.next, 0, f⟩ ?_ ?_ ?_ ?_ hready ?_
    · rw [hhd]
    · rw [hwaiters]
    · rw [hinterrupters]
      cases interruptible with
      | true => exact .inl rfl
      | false => exact .inr rfl
    · rw [hregistered, List.nil_append]
    · intro hin
      rcases List.mem_cons.mp hin with heq | hin
      · cases heq
      · exact Nat.lt_irrefl _ ((h.story.numbered hvalid).fresh _ (h.story.asked _ hin))
  · intro hclosed
    rw [hvalid] at hclosed
    cases hclosed
  · have hlicence := h.licence
    rw [hhandle] at hlicence
    rw [count_reaped_cons (e := .begun ⟨s.next, 0, f⟩) nofun]
    exact hlicence
  · intro hd' heq _
    rw [hhd] at heq
    rw [← Option.some.inj heq]
    exact ⟨rfl, fun w hin => hnot w ((ended_cons (e := .begun ⟨s.next, 0, f⟩) nofun w _).mp hin)⟩
  · intro hd' heq hopen'
    rw [hhd] at heq
    rw [← Option.some.inj heq] at hopen'
    cases hopen'

/-- The wait of the fiber is over already. -/
theorem Inv.interrupt (h : Inv s) {w : Wait} (hin : w ∈ s.interrupters) (hnot : w ∉ s.registered) :
    Inv (s.interrupt w) := by
  have hvalid : s.valid = true := by
    by_contra hclosed
    rw [(h.closed (by simpa using hclosed)).2.2] at hin
    cases hin
  unfold State.interrupt
  rw [if_neg hnot, List.erase_of_not_mem hnot]
  cases h.phase hvalid with
  | idle _ _ _ _ hinterrupters | collected _ _ hinterrupters =>
      rw [hinterrupters] at hin
      cases hin
  | waiting w' hhandle hwaiters hinterrupters hregistered =>
      rcases hinterrupters with hone | hnone
      · rw [hone, List.mem_singleton] at hin
        rw [hregistered, hin] at hnot
        exact absurd (List.mem_singleton_self w') hnot
      · rw [hnone] at hin
        cases hin
  | finishing w' hhandle hwaiters hinterrupters hregistered hready hchild =>
      rcases hinterrupters with hone | hnone
      · rw [hone, List.mem_singleton] at hin
        subst hin
        have hnobody : s.interrupters.erase w = [] := by
          rw [hone]
          exact List.erase_cons_head ..
        have hbegun := (h.story.undecided hvalid (hwaiters ▸ List.mem_singleton_self w)).1
        exact h.of_same (fun _ => .finishing w hhandle hwaiters (.inr hnobody) hregistered hready hchild)
          (h.story.event nofun nofun nofun (fun w' heq => Event.asked.inj heq ▸ hbegun) nofun)
          rfl rfl (fun _ => rfl) (fun hempty _ => ⟨hempty, hnobody⟩) (ended_cons nofun) (count_reaped_cons nofun)
      · rw [hnone] at hin
        cases hin

theorem Inv.complete (h : Inv s) {w : Wait} (hchild : s.child ≠ none) (hin : w ∈ s.registered) :
    Inv { s with registered := s.registered.erase w, ready := s.ready ++ [(w, false)] } := by
  refine h.of_same (fun hvalid => ?_) h.story rfl rfl (fun _ => rfl) .intro (fun _ _ => .rfl) rfl
  cases h.phase hvalid with
  | idle _ _ _ _ _ hregistered | finishing _ _ _ _ hregistered | collected _ _ _ hregistered =>
      rw [hregistered] at hin
      cases hin
  | waiting w' hhandle hwaiters hinterrupters hregistered hready hasked =>
      rw [hregistered, List.mem_singleton] at hin
      subst hin
      refine .finishing w hhandle hwaiters hinterrupters ?_ ?_ hchild
      · simp only [hregistered]
        exact List.erase_cons_head ..
      · simp only [hready]
        rfl

theorem Inv.run (h : Inv s) {w : Wait} {aborted : Bool} (hin : (w, aborted) ∈ s.ready)
    (hexec : ({ s with ready := s.ready.erase (w, aborted) } : State).onWait w aborted = .ok s') : Inv s' := by
  unfold State.onWait at hexec
  split at hexec
  · rename_i hclosed
    cases hexec
    refine h.of_same (fun hvalid => ?_) h.story rfl rfl (fun _ => rfl) .intro (fun _ _ => .rfl) rfl
    change s.valid = false at hclosed
    rw [hclosed] at hvalid
    cases hvalid
  · rename_i hclosed
    have hvalid : s.valid = true := by simpa using hclosed
    split at hexec
    · cases hexec
    · cases hexec
      cases h.phase hvalid with
      | idle _ _ _ _ _ _ hready | waiting _ _ _ _ _ hready | collected _ _ _ _ hready =>
          rw [hready] at hin
          cases hin
      | finishing w' hhandle hwaiters hinterrupters hregistered hready hchild =>
          rw [hready, List.mem_singleton] at hin
          obtain ⟨rfl, rfl⟩ := Prod.mk.inj hin
          obtain ⟨e, he⟩ := Option.ne_none_iff_exists'.mp hchild
          have hmem : w ∈ s.waiters := hwaiters ▸ List.mem_singleton_self w
          have hnodup : s.waiters.Nodup := hwaiters ▸ List.nodup_singleton w
          have hreaped := h.story.event (e := .reaped 0) nofun nofun nofun nofun nofun
          have hzero := List.count_eq_zero.mpr (h.unreaped hhandle rfl)
          refine ⟨fun _ => ?_, hreaped.resume hvalid hmem hnodup .exited, fun hclosed => ?_, ?_, ?_, ?_⟩
          · refine .idle _ rfl rfl ?_ ?_ hregistered ?_
            · simp only [State.resume, hwaiters]
              exact List.erase_cons_head ..
            · rcases hinterrupters with hone | hnone
              · simp only [State.resume, hone]
                exact List.erase_cons_head ..
              · simp only [State.resume, hnone]
                rfl
            · simp only [State.resume, hready]
              exact List.erase_cons_head ..
          · change s.valid = false at hclosed
            rw [hvalid] at hclosed
            cases hclosed
          · simp [State.resume, hzero]
          · intro hd' heq hopen
            rw [← Option.some.inj heq] at hopen
            cases hopen
          · intro hd' heq _
            rw [← Option.some.inj heq]
            refine ⟨w, e, (h.story.undecided hvalid hmem).2.1, List.mem_cons_of_mem _ (List.mem_cons_self ..), he, ?_⟩
            simp only [he]
            rfl

/-- What the destructor leaves behind. -/
theorem Inv.destroy (h : Inv s) : Story s.valid s.waiters s.next s.destroy.log ∧
    s.destroy.log.count (.reaped 0) ≤ 1 := by
  have hlicence := h.licence
  unfold State.destroy
  cases hopen : s.handle.any Handle.isOpen with
  | true =>
      rw [hopen, if_pos rfl] at hlicence
      simp only [if_true, List.count_cons_self]
      exact ⟨h.story.event nofun nofun nofun nofun nofun, by omega⟩
  | false =>
      rw [hopen, if_neg Bool.false_ne_true] at hlicence
      exact ⟨h.story, by simpa using hlicence⟩

theorem Inv.collect (h : Inv s) (hvalid : s.valid = true) (hwaiters : s.waiters = []) : Inv s.destroy := by
  obtain ⟨hstory, hlicence⟩ := h.destroy
  refine ⟨fun _ => ?_, hstory, fun hclosed => ?_, ?_, nofun, nofun⟩
  · have hempty : s.interrupters = [] ∧ s.registered = [] ∧ s.ready = [] := by
      cases h.phase hvalid with
      | idle _ _ _ _ hinterrupters hregistered hready | collected _ _ hinterrupters hregistered hready =>
          exact ⟨hinterrupters, hregistered, hready⟩
      | waiting w _ hone | finishing w _ hone =>
          rw [hwaiters] at hone
          cases hone
    refine .collected rfl hwaiters hempty.1 rfl ?_
    simp only [State.destroy, hempty]
    rfl
  · rw [show s.destroy.valid = s.valid from rfl, hvalid] at hclosed
    cases hclosed
  · simpa [State.destroy] using hlicence

theorem Inv.close (h : Inv s) : Inv { s.destroy with valid := false, waiters := [], interrupters := [] } := by
  obtain ⟨hstory, hlicence⟩ := h.destroy
  refine ⟨nofun, hstory.close, fun _ => ⟨rfl, rfl, rfl⟩, ?_, nofun, nofun⟩
  simpa [State.destroy] using hlicence

theorem step_inv {a : Action} (hexec : exec s a = .ok s') (hok : harmless s a = true) (h : Inv s) : Inv s' := by
  cases a with
  | wait f interruptible =>
      simp only [exec] at hexec
      split at hexec
      · rename_i hd hhandle
        split at hexec
        · rename_i hvalid
          exact h.wait hvalid.1 hhandle hexec
        · cases hexec
      · cases hexec
  | interrupt f =>
      simp only [exec] at hexec
      split at hexec
      · rename_i w hfind
        cases hexec
        simp only [harmless, hfind, Option.all_some, decide_eq_true_eq] at hok
        exact h.interrupt (List.mem_of_find?_eq_some hfind) hok
      · cases hexec
  | kill =>
      simp only [exec] at hexec
      split at hexec
      · rename_i hd hhandle
        split at hexec
        · unfold State.subprocessKill at hexec
          split at hexec
          · cases hexec
          · rename_i hopen
            cases hexec
            exact h.kill hhandle (by simpa using hopen)
        · cases hexec
      · cases hexec
  | exit e =>
      simp only [exec] at hexec
      split at hexec
      · rename_i hchild
        cases hexec
        exact h.exit e hchild
      · cases hexec
  | complete w =>
      simp only [exec] at hexec
      split at hexec
      · rename_i hin
        cases hexec
        exact h.complete hin.1 hin.2
      · cases hexec
  | run w aborted =>
      simp only [exec] at hexec
      split at hexec
      · rename_i hin
        exact h.run hin hexec
      · cases hexec
  | collect =>
      simp only [exec] at hexec
      split at hexec
      · rename_i hin
        cases hexec
        exact h.collect hin.1 hin.2.2
      · cases hexec
  | close =>
      simp only [exec] at hexec
      split at hexec
      · cases hexec
        exact h.close
      · cases hexec

theorem reachable_inv (h : Reachable machine.initial (restrict (fun s a => harmless s a = true) machine.Step) s) : Inv s := by
  refine h.invariant ?_ fun s a s' hs hstep => step_inv hstep.2 hstep.1 hs
  rintro s rfl
  exact .start

theorem Inv.lawful (h : Inv s) : Lawful 0 (machine.view s 0) where
  once := h.story.once
  kept hvalid w hw := (h.story.numbered hvalid).exclusive w hw
  waitable hvalid halive hno := by
    obtain ⟨hd, hhandle⟩ := Option.isSome_iff_exists.mp halive
    simp only [machine]
    rw [hhandle]
    have hopen : hd.isOpen = true := by
      by_contra hnot
      obtain ⟨w, e, hproc, hended, -⟩ := h.gone hd hhandle (by simpa using hnot)
      exact hno w hproc hended
    refine ⟨hopen, (h.known hd hhandle hopen).1, fun hbusy => ?_⟩
    have hone : ∃ w, s.waiters = [w] := by
      cases h.phase hvalid with
      | idle hd' hhandle' hfree =>
          rw [hhandle] at hhandle'
          rw [Option.some.inj hhandle'] at hbusy
          exact absurd hbusy (by simp [hfree])
      | waiting w _ hwaiters | finishing w _ hwaiters => exact ⟨w, hwaiters⟩
      | collected hnone =>
          rw [hhandle] at hnone
          cases hnone
    obtain ⟨w, hw⟩ := hone
    have hin : w ∈ s.waiters := hw ▸ List.mem_singleton_self w
    exact ⟨w, hin, (h.story.undecided hvalid hin).2⟩
  code c hc := by
    obtain ⟨hd, hhandle, hstatus⟩ := Option.bind_eq_some_iff.mp hc
    have hopen : hd.isOpen = false := by
      by_contra hnot
      rw [(h.known hd hhandle (by simpa using hnot)).1] at hstatus
      cases hstatus
    obtain ⟨w, e, hproc, hended, hchild, hstatus'⟩ := h.gone hd hhandle hopen
    exact ⟨w, e, hproc, hended, hchild, Option.some.inj (hstatus.symm.trans hstatus')⟩
  reaped := Nat.le_trans (Nat.le_add_left ..) h.licence
  signals := h.story.signals

/-- A handler that is ready resumes its fiber. -/
theorem Inv.runs (h : Inv s) (hvalid : s.valid = true) {w : Wait} {aborted : Bool}
    (hin : (w, aborted) ∈ s.ready) : ∃ s', machine.Runs s s' ∧ w ∈ resumed s'.log := by
  have hhandle : s.handle = some ⟨true, true, none⟩ := by
    cases h.phase hvalid with
    | finishing _ hhandle => exact hhandle
    | idle _ _ _ _ _ _ hready | waiting _ _ _ _ _ hready | collected _ _ _ _ hready =>
        rw [hready] at hin
        cases hin
  have hexec : exec s (.run w aborted) =
      ({ s with ready := s.ready.erase (w, aborted) } : State).onWait w aborted := by
    simp only [exec]
    rw [if_pos hin]
  unfold State.onWait at hexec
  simp only [hvalid, Bool.true_eq_false, if_false, hhandle] at hexec
  exact ⟨_, ⟨Action.run w aborted, rfl, hexec⟩, List.mem_cons_self ..⟩

theorem Inv.resumes (h : Inv s) (hvalid : s.valid = true) {w : Wait} (hin : w ∈ s.waiters)
    (hdue : s.child ≠ none ∨ .asked w ∈ s.log) :
    ∃ s', ReflTransGen machine.Runs s s' ∧ w ∈ resumed s'.log := by
  cases h.phase hvalid with
  | idle _ _ _ hwaiters | collected _ hwaiters =>
      rw [hwaiters] at hin
      cases hin
  | finishing w' hhandle hwaiters hinterrupters hregistered hready =>
      rw [hwaiters, List.mem_singleton] at hin
      subst hin
      obtain ⟨s', hrun, hresumed⟩ := h.runs hvalid (hready ▸ List.mem_singleton_self _)
      exact ⟨s', .single hrun, hresumed⟩
  | waiting w' hhandle hwaiters hinterrupters hregistered hready hasked =>
      rw [hwaiters, List.mem_singleton] at hin
      subst hin
      have hchild : s.child ≠ none := hdue.resolve_right hasked
      have hregs : w ∈ s.registered := hregistered ▸ List.mem_singleton_self _
      have hcomplete : exec s (.complete w) = .ok { s with
          registered := s.registered.erase w, ready := s.ready ++ [(w, false)] } := by
        simp only [exec]
        rw [if_pos ⟨hchild, hregs⟩]
      obtain ⟨s', hrun, hresumed⟩ := @Inv.runs _ (h.complete hchild hregs) hvalid w false
        (List.mem_append_right _ (List.mem_singleton_self _))
      exact ⟨s', .head ⟨Action.complete w, rfl, hcomplete⟩ (.single hrun), hresumed⟩

theorem Inv.defined (h : Inv s) (a : Action) : exec s a ≠ .error .undefined := by
  cases a with
  | wait f interruptible =>
      simp only [exec, State.subprocessWait]
      repeat' split
      all_goals exact nofun
  | kill =>
      simp only [exec, State.subprocessKill]
      repeat' split
      all_goals exact nofun
  | interrupt | exit | complete | collect | close =>
      simp only [exec]
      split <;> exact nofun
  | run w aborted =>
      simp only [exec]
      split
      · rename_i hin
        simp only [State.onWait]
        split
        · exact nofun
        · rename_i hvalid
          cases h.phase (by simpa using hvalid) with
          | idle _ _ _ _ _ _ hready | waiting _ _ _ _ _ hready | collected _ _ _ _ hready =>
              rw [hready] at hin
              cases hin
          | finishing _ hhandle =>
              rw [hhandle]
              exact nofun
      · exact nofun

/-- The interruption of a wait that is pending closes the handle. -/
theorem Inv.interrupt_closes (h : Inv s) {w : Wait} (hin : w ∈ s.interrupters) (hregistered : w ∈ s.registered) :
    ∃ s', machine.Runs (s.interrupt w) s' ∧ ¬ machine.Sound s' := by
  have hvalid : s.valid = true := by
    by_contra hclosed
    rw [(h.closed (by simpa using hclosed)).2.2] at hin
    cases hin
  have hhandle : s.handle = some ⟨true, true, none⟩ := by
    cases h.phase hvalid with
    | waiting _ hhandle => exact hhandle
    | idle _ _ _ _ _ hnone | finishing _ _ _ _ hnone | collected _ _ _ hnone =>
        rw [hnone] at hregistered
        cases hregistered
  have hready : (w, true) ∈ (s.interrupt w).ready := by
    unfold State.interrupt
    rw [if_pos hregistered]
    exact List.mem_append_right _ (List.mem_singleton_self _)
  have hexec : exec (s.interrupt w) (.run w true) =
      ({ s.interrupt w with ready := (s.interrupt w).ready.erase (w, true) } : State).onWait w true := by
    simp only [exec]
    rw [if_pos hready]
  unfold State.onWait at hexec
  rw [if_neg (by simp [State.interrupt, hvalid])] at hexec
  simp only [show (s.interrupt w).handle = _ from hhandle] at hexec
  refine ⟨_, ⟨Action.run w true, rfl, hexec⟩, fun hsound => ?_⟩
  have hopen := (hsound.lawful 0 rfl).waitable hvalid rfl fun v _ hv => ?_
  · cases hopen.1
  · refine (h.known _ hhandle rfl).2 v ?_
    simpa [machine, State.resume, State.interrupt] using hv

/-- Windows behaves as expected while no wait that is pending is interrupted. -/
theorem sound (h : Reachable machine.initial (restrict (fun s a => harmless s a = true) machine.Step) s) : machine.Sound s := by
  have hinv := reachable_inv h
  refine ⟨?_, ?_, hinv.defined⟩
  · rintro p rfl
    exact hinv.lawful
  · rintro p rfl w hin - hvalid hdue
    exact hinv.resumes hvalid hin hdue

end Emilua.Subprocess.Windows
