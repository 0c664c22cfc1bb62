import Emilua.Subprocess.Lifecycle

/-!
`subprocess` on Linux: the waiter on the pidfd of the child, and the reaper that
the handle leaves behind when it is collected.
-/
namespace Emilua.Subprocess.Linux
open Transition Relation

/-- `subprocess`. `reaper` says that it is engaged. -/
structure Handle where
  reaper : Bool
  waitInProgress : Bool
  info : Option Exit
deriving DecidableEq, Repr

/-- A handler given to `async_wait`: that of `subprocess_wait` or that of the
destructor. -/
inductive Op where
  | wait (w : Wait)
  | gcReap
deriving DecidableEq, Repr

/-- `signal` is `signal_on_gcreaper != 0`. A handler that is `ready` has been given
`operation_aborted`, if it is marked. `interrupters` has the waits whose fiber has
an interrupter. -/
structure State where
  signal : Bool
  valid : Bool
  child : Option Exit
  handle : Option Handle
  registered : List Op
  ready : List (Op × Bool)
  waiters : List Wait
  interrupters : List Wait
  next : Nat
  log : List Event
deriving DecidableEq, Repr

def State.start (signal : Bool) : State :=
  ⟨signal, true, none, some ⟨true, false, none⟩, [], [], [], [], 0, []⟩

inductive Action where
  | wait (f : Fiber) (interruptible : Bool)
  | interrupt (f : Fiber)
  | kill
  | exit (e : Exit)
  | complete (op : Op)
  | run (op : Op) (aborted : Bool)
  | collect
  | close
deriving DecidableEq, Repr

namespace State

def subprocessWait (s : State) (h : Handle) (f : Fiber) (interruptible : Bool) : Except Refusal State :=
  if h.reaper = false then .error .noChildProcess
  else if h.waitInProgress then .error .deviceOrResourceBusy
  else
    let w : Wait := ⟨s.next, 0, f⟩
    .ok { s with
      handle := some { h with waitInProgress := true }
      registered := s.registered ++ [.wait w]
      waiters := w :: s.waiters
      interrupters := if interruptible then w :: s.interrupters else s.interrupters
      next := s.next + 1
      log := .begun w :: s.log }

/-- The interrupter cancels what is registered on the waiter. -/
def interrupt (s : State) (w : Wait) : Except Refusal State :=
  match s.handle with
  | some ⟨true, _, _⟩ => .ok { s with
      registered := []
      ready := s.ready ++ s.registered.map fun op => (op, true)
      interrupters := s.interrupters.erase w
      log := .asked w :: s.log }
  | _ => .error .undefined

def subprocessKill (s : State) (h : Handle) : Except Refusal State :=
  if h.reaper = false then .error .noSuchProcess
  else .ok { s with log := .signalled 0 :: s.log }

/-- `fiber_resume`, which clears the interrupter. -/
def resume (s : State) (w : Wait) (o : Outcome) : State :=
  { s with
    waiters := s.waiters.erase w
    interrupters := s.interrupters.erase w
    log := .resumed w o :: s.log }

/-- The handler of `subprocess_wait`. -/
def onWait (s : State) (w : Wait) (aborted : Bool) : Except Refusal State :=
  if s.valid = false then .ok s
  else
    match s.handle with
    | none => .error .undefined
    | some h =>
        if aborted then
          .ok ({ s with
            handle := some { h with waitInProgress := false }
            log := .ended w .interrupted :: s.log }.resume w .interrupted)
        else
          .ok ({ s with
            handle := some ⟨false, false, s.child⟩
            log := .ended w .exited :: .reaped 0 :: s.log }.resume w .exited)

/-- `~subprocess`. -/
def destroy (s : State) : State :=
  match s.handle with
  | some ⟨true, _, _⟩ => { s with
      handle := none
      registered := s.registered ++ [.gcReap]
      log := if s.signal then .signalled 0 :: s.log else s.log }
  | _ => { s with handle := none }

end State

def exec (s : State) : Action → Except Refusal State
  | .wait f interruptible =>
      match s.handle with
      | some h =>
          if s.valid ∧ ∀ w ∈ s.waiters, w.fiber ≠ f then s.subprocessWait h f interruptible
          else .error .disabled
      | none => .error .disabled
  | .interrupt f =>
      match s.interrupters.find? (·.fiber == f) with
      | some w => s.interrupt w
      | none => .error .disabled
  | .kill =>
      match s.handle with
      | some h => if s.valid then s.subprocessKill h else .error .disabled
      | none => .error .disabled
  | .exit e => if s.child = none then .ok { s with child := some e } else .error .disabled
  | .complete op =>
      if s.child ≠ none ∧ op ∈ s.registered then
        .ok { s with registered := s.registered.erase op, ready := s.ready ++ [(op, false)] }
      else .error .disabled
  | .run op aborted =>
      if (op, aborted) ∈ s.ready then
        let s := { s with ready := s.ready.erase (op, aborted) }
        match op with
        | .wait w => s.onWait w aborted
        | .gcReap => .ok { s with log := .reaped 0 :: s.log }
      else .error .disabled
  -- a fiber in `wait` has the handle on its stack
  | .collect =>
      if s.valid ∧ s.handle ≠ none ∧ s.waiters = [] then .ok s.destroy else .error .disabled
  | .close =>
      if s.valid then .ok { s.destroy with valid := false, waiters := [], interrupters := [] }
      else .error .disabled

def machine : Machine where
  State := State
  Action := Action
  procs p := p = 0
  initial s := ∃ signal, s = .start signal
  exec := exec
  runtime
    | .complete _ | .run _ _ => true
    | _ => false
  view s _ :=
    { valid := s.valid
      alive := s.handle.isSome
      isOpen := s.handle.any Handle.reaper
      busy := s.handle.any Handle.waitInProgress
      exitCode := (s.handle.bind Handle.info).map Exit.code
      child := s.child
      waiting := s.waiters
      log := s.log }

/-! What holds in every run. -/

/-- The handle, while there is a wait or none, and the handlers. -/
inductive Phase (s : State) : Prop where
  | idle (h : Handle) (hhandle : s.handle = some h) (hfree : h.waitInProgress = false) (hwaiters : s.waiters = [])
      (hinterrupters : s.interrupters = []) (hregistered : s.registered = []) (hready : s.ready = [])
  | waiting (w : Wait) (hhandle : s.handle = some ⟨true, true, none⟩) (hwaiters : s.waiters = [w])
      (hinterrupters : s.interrupters = [w] ∨ s.interrupters = []) (hregistered : s.registered = [.wait w])
      (hready : s.ready = []) (hasked : .asked w ∉ s.log)
  | finishing (w : Wait) (aborted : Bool) (hhandle : s.handle = some ⟨true, true, none⟩) (hwaiters : s.waiters = [w])
      (hinterrupters : s.interrupters = [w] ∨ s.interrupters = []) (hregistered : s.registered = [])
      (hready : s.ready = [(.wait w, aborted)]) (hchild : aborted = false → s.child ≠ none)
  | collected (hhandle : s.handle = none) (hwaiters : s.waiters = []) (hinterrupters : s.interrupters = [])
      (hregistered : ∀ w, .wait w ∉ s.registered) (hready : ∀ w b, (.wait w, b) ∉ s.ready)

/-- The licence to reap the child: the handle, a handler of the destructor, or
nobody, when it has been reaped. -/
def State.licences (s : State) : Nat :=
  (if s.handle.any Handle.reaper then 1 else 0) + s.registered.count .gcReap +
    s.ready.countP (·.1 = .gcReap) + s.log.count (.reaped 0)

structure Inv (s : State) : Prop where
  phase : s.valid = true → Phase s
  story : Story s.valid s.waiters s.next s.log
  closed : s.valid = false → s.handle = none ∧ s.waiters = [] ∧ s.interrupters = []
  licence : s.licences ≤ 1
  known : ∀ h, s.handle = some h → h.reaper = true → h.info = none ∧ ∀ w, .ended w .exited ∉ s.log
  gone : ∀ h, s.handle = some h → h.reaper = false →
    ∃ w e, w.proc = 0 ∧ .ended w .exited ∈ s.log ∧ s.child = some e ∧ h.info = some e

/-- Everything that a step can do. -/
inductive Moves (s : State) : State → Prop where
  | wait (h f) (interruptible : Bool) (hvalid : s.valid = true) (hhandle : s.handle = some h) (hreaper : h.reaper = true)
      (hfree : h.waitInProgress = false) :
      Moves s { s with
        handle := some { h with waitInProgress := true }
        registered := s.registered ++ [.wait ⟨s.next, 0, f⟩]
        waiters := ⟨s.next, 0, f⟩ :: s.waiters
        interrupters := if interruptible then ⟨s.next, 0, f⟩ :: s.interrupters else s.interrupters
        next := s.next + 1
        log := .begun ⟨s.next, 0, f⟩ :: s.log }
  | interrupt (w) (hin : w ∈ s.interrupters) :
      Moves s { s with
        registered := []
        ready := s.ready ++ s.registered.map fun op => (op, true)
        interrupters := s.interrupters.erase w
        log := .asked w :: s.log }
  | kill (h) (hhandle : s.handle = some h) (hreaper : h.reaper = true) :
      Moves s { s with log := .signalled 0 :: s.log }
  | exit (e) (hchild : s.child = none) : Moves s { s with child := some e }
  | complete (op) (hchild : s.child ≠ none) (hin : op ∈ s.registered) :
      Moves s { s with registered := s.registered.erase op, ready := s.ready ++ [(op, false)] }
  | late (w aborted) (hvalid : s.valid = false) (hin : (.wait w, aborted) ∈ s.ready) :
      Moves s { s with ready := s.ready.erase (.wait w, aborted) }
  | interrupted (w h) (hvalid : s.valid = true) (hhandle : s.handle = some h) (hin : (.wait w, true) ∈ s.ready) :
      Moves s (({ s with
        ready := s.ready.erase (.wait w, true)
        handle := some { h with waitInProgress := false }
        log := .ended w .interrupted :: s.log } : State).resume w .interrupted)
  | exited (w h) (hvalid : s.valid = true) (hhandle : s.handle = some h) (hin : (.wait w, false) ∈ s.ready) :
      Moves s (({ s with
        ready := s.ready.erase (.wait w, false)
        handle := some ⟨false, false, s.child⟩
        log := .ended w .exited :: .reaped 0 :: s.log } : State).resume w .exited)
  | reap (b) (hin : (.gcReap, b) ∈ s.ready) :
      Moves s { s with ready := s.ready.erase (.gcReap, b), log := .reaped 0 :: s.log }
  | collect (hvalid : s.valid = true) (hwaiters : s.waiters = []) : Moves s s.destroy
  | close (hvalid : s.valid = true) :
      Moves s { s.destroy with valid := false, waiters := [], interrupters := [] }

theorem moves_of_exec {s s' : State} {a : Action} (h : exec s a = .ok s') : Moves s s' := by
  cases a with
  | wait f interruptible =>
      simp only [exec] at h
      split at h
      · rename_i handle hhandle
        split at h
        · rename_i hok
          unfold State.subprocessWait at h
          split at h
          · cases h
          · rename_i hreaper
            split at h
            · cases h
            · rename_i hfree
              cases h
              exact .wait handle f interruptible hok.1 hhandle (by simpa using hreaper) (by simpa using hfree)
        · cases h
      · cases h
  | interrupt f =>
      simp only [exec] at h
      split at h
      · rename_i w hfind
        unfold State.interrupt at h
        split at h
        · cases h
          exact .interrupt w (List.mem_of_find?_eq_some hfind)
        · cases h
      · cases h
  | kill =>
      simp only [exec] at h
      split at h
      · rename_i handle hhandle
        split at h
        · unfold State.subprocessKill at h
          split at h
          · cases h
          · rename_i hreaper
            cases h
            exact .kill handle hhandle (by simpa using hreaper)
        · cases h
      · cases h
  | exit e =>
      simp only [exec] at h
      split at h
      · rename_i hchild
        cases h
        exact .exit e hchild
      · cases h
  | complete op =>
      simp only [exec] at h
      split at h
      · rename_i hok
        cases h
        exact .complete op hok.1 hok.2
      · cases h
  | run op aborted =>
      simp only [exec] at h
      split at h
      · rename_i hin
        cases op with
        | gcReap =>
            cases h
            exact .reap aborted hin
        | wait w =>
            simp only [State.onWait] at h
            split at h
            · rename_i hvalid
              cases h
              exact .late w aborted hvalid hin
            · rename_i hvalid
              split at h
              · cases h
              · rename_i handle hhandle
                cases aborted with
                | true =>
                    cases h
                    exact .interrupted w handle (by simpa using hvalid) hhandle hin
                | false =>
                    cases h
                    exact .exited w handle (by simpa using hvalid) hhandle hin
      · cases h
  | collect =>
      simp only [exec] at h
      split at h
      · rename_i hok
        cases h
        exact .collect hok.1 hok.2.2
      · cases h
  | close =>
      simp only [exec] at h
      split at h
      · rename_i hvalid
        cases h
        exact .close hvalid
      · cases h

/-- A wait that is registered, or whose handler is ready, is the only one. -/
theorem Phase.of_ready {s : State} (h : Phase s) {w : Wait} {aborted : Bool} (hin : (.wait w, aborted) ∈ s.ready) :
    s.handle = some ⟨true, true, none⟩ ∧ s.waiters = [w] ∧ (s.interrupters = [w] ∨ s.interrupters = []) ∧ s.registered = [] ∧
      s.ready = [(.wait w, aborted)] ∧ (aborted = false → s.child ≠ none) := by
  cases h with
  | idle h hhandle hfree hwaiters hinterrupters hregistered hready =>
      rw [hready] at hin
      cases hin
  | waiting w hhandle hwaiters hinterrupters hregistered hready hasked =>
      rw [hready] at hin
      cases hin
  | finishing w' b hhandle hwaiters hinterrupters hregistered hready hchild =>
      rw [hready, List.mem_singleton] at hin
      cases hin
      exact ⟨hhandle, hwaiters, hinterrupters, hregistered, hready, hchild⟩
  | collected hhandle hwaiters hinterrupters hregistered hready => exact absurd hin (hready w aborted)

theorem Phase.of_interrupter {s : State} (h : Phase s) {w : Wait} (hin : w ∈ s.interrupters) :
    s.handle = some ⟨true, true, none⟩ ∧ s.waiters = [w] ∧ s.interrupters = [w] ∧
      ((s.registered = [.wait w] ∧ s.ready = []) ∨
        s.registered = [] ∧ ∃ b, s.ready = [(.wait w, b)] ∧ (b = false → s.child ≠ none)) := by
  cases h with
  | idle h hhandle hfree hwaiters hinterrupters hregistered hready =>
      rw [hinterrupters] at hin
      cases hin
  | waiting w' hhandle hwaiters hinterrupters hregistered hready hasked =>
      rcases hinterrupters with hone | hnone
      · rw [hone, List.mem_singleton] at hin
        subst hin
        exact ⟨hhandle, hwaiters, hone, .inl ⟨hregistered, hready⟩⟩
      · rw [hnone] at hin
        cases hin
  | finishing w' b hhandle hwaiters hinterrupters hregistered hready hchild =>
      rcases hinterrupters with hone | hnone
      · rw [hone, List.mem_singleton] at hin
        subst hin
        exact ⟨hhandle, hwaiters, hone, .inr ⟨hregistered, b, hready, hchild⟩⟩
      · rw [hnone] at hin
        cases hin
  | collected hhandle hwaiters hinterrupters hregistered hready =>
      rw [hinterrupters] at hin
      cases hin

theorem Inv.valid_of_interrupter {s : State} (h : Inv s) {w : Wait} (hin : w ∈ s.interrupters) : s.valid = true := by
  by_contra hvalid
  have hclosed := h.closed (by simpa using hvalid)
  rw [hclosed.2.2] at hin
  cases hin

theorem Inv.start (signal : Bool) : Inv (.start signal) where
  phase _ := .idle ⟨true, false, none⟩ rfl rfl rfl rfl rfl rfl
  story := .empty true
  closed := nofun
  licence := Nat.le_refl _
  known h hh _ := by
    cases hh
    exact ⟨rfl, nofun⟩
  gone h hh hreaper := by
    cases hh
    cases hreaper

variable {s s' : State}

/-- A step that leaves the handle alone. -/
theorem Inv.of_same (h : Inv s) (hphase : s'.valid = true → Phase s')
    (hstory : Story s'.valid s'.waiters s'.next s'.log) (hvalid : s'.valid = s.valid)
    (hhandle : s'.handle = s.handle) (hchild : s.child ≠ none → s'.child = s.child)
    (hclosed : s.waiters = [] → s.interrupters = [] → s'.waiters = [] ∧ s'.interrupters = [])
    (hended : ∀ w o, .ended w o ∈ s'.log ↔ .ended w o ∈ s.log) (hlicences : s'.licences = s.licences) :
    Inv s' where
  phase := hphase
  story := hstory
  closed hs := by
    obtain ⟨hnone, hempty, hnobody⟩ := h.closed (hvalid ▸ hs)
    exact ⟨hhandle.trans hnone, hclosed hempty hnobody⟩
  licence := by
    rw [hlicences]
    exact h.licence
  known hd hh hreaper := by
    obtain ⟨hinfo, hnot⟩ := h.known hd (hhandle ▸ hh) hreaper
    exact ⟨hinfo, fun w hin => hnot w ((hended w _).mp hin)⟩
  gone hd hh hreaper := by
    obtain ⟨w, e', hproc, hin, he', hinfo⟩ := h.gone hd (hhandle ▸ hh) hreaper
    refine ⟨w, e', hproc, (hended w _).mpr hin, ?_, hinfo⟩
    rw [hchild, he']
    rw [he']
    exact Option.some_ne_none e'

/-- While the handle may reap the child, nobody has. -/
theorem Inv.unreaped (h : Inv s) {hd : Handle} (hhandle : s.handle = some hd) (hreaper : hd.reaper = true) :
    .reaped 0 ∉ s.log := by
  intro hin
  have hcount := List.count_pos_iff.mpr hin
  have hlicence := h.licence
  unfold State.licences at hlicence
  rw [hhandle, Option.any_some, hreaper, if_pos rfl] at hlicence
  omega

theorem Inv.kill (h : Inv s) {hd : Handle} (hhandle : s.handle = some hd) (hreaper : hd.reaper = true) :
    Inv { s with log := .signalled 0 :: s.log } := by
  refine h.of_same (fun hvalid => ?_) (h.story.event nofun nofun nofun nofun fun _ => h.unreaped hhandle hreaper)
    rfl rfl (fun _ => rfl) .intro (ended_cons nofun) ?_
  · cases h.phase hvalid with
    | idle h hhandle hfree hwaiters hinterrupters hregistered hready =>
        exact .idle h hhandle hfree hwaiters hinterrupters hregistered hready
    | waiting w hhandle hwaiters hinterrupters hregistered hready hasked =>
        refine .waiting w hhandle hwaiters hinterrupters hregistered hready fun hin => ?_
        rcases List.mem_cons.mp hin with heq | hin
        · cases heq
        · exact hasked hin
    | finishing w b hhandle hwaiters hinterrupters hregistered hready hchild =>
        exact .finishing w b hhandle hwaiters hinterrupters hregistered hready hchild
    | collected hhandle hwaiters hinterrupters hregistered hready =>
        exact .collected hhandle hwaiters hinterrupters hregistered hready
  · unfold State.licences
    rw [@count_reaped_cons s.log 0 (.signalled 0) nofun]

theorem Inv.exit (h : Inv s) (e : Exit) (hchild : s.child = none) : Inv { s with child := some e } := by
  refine h.of_same (fun hvalid => ?_) h.story rfl rfl (fun hsome => absurd hchild hsome) .intro (fun _ _ => .rfl) rfl
  cases h.phase hvalid with
  | idle h hhandle hfree hwaiters hinterrupters hregistered hready =>
      exact .idle h hhandle hfree hwaiters hinterrupters hregistered hready
  | waiting w hhandle hwaiters hinterrupters hregistered hready hasked =>
      exact .waiting w hhandle hwaiters hinterrupters hregistered hready hasked
  | finishing w b hhandle hwaiters hinterrupters hregistered hready _ =>
      exact .finishing w b hhandle hwaiters hinterrupters hregistered hready fun _ => nofun
  | collected hhandle hwaiters hinterrupters hregistered hready =>
      exact .collected hhandle hwaiters hinterrupters hregistered hready

theorem Inv.wait (h : Inv s) {hd : Handle} (f : Fiber) (interruptible : Bool) (hvalid : s.valid = true)
    (hhandle : s.handle = some hd) (hreaper : hd.reaper = true) (hfree : hd.waitInProgress = false) :
    Inv { s with
      handle := some { hd with waitInProgress := true }
      registered := s.registered ++ [.wait ⟨s.next, 0, f⟩]
      waiters := ⟨s.next, 0, f⟩ :: s.waiters
      interrupters := if interruptible then ⟨s.next, 0, f⟩ :: s.interrupters else s.interrupters
      next := s.next + 1
      log := .begun ⟨s.next, 0, f⟩ :: s.log } := by
  obtain ⟨hinfo, hnot⟩ := h.known hd hhandle hreaper
  have hhd : ({ hd with waitInProgress := true } : Handle) = ⟨true, true, none⟩ := by
    rw [← hreaper, ← hinfo]
  obtain ⟨hwaiters, hinterrupters, hregistered, hready⟩ :
      s.waiters = [] ∧ s.interrupters = [] ∧ s.registered = [] ∧ s.ready = [] := by
    cases h.phase hvalid with
    | idle h hhandle hfree hwaiters hinterrupters hregistered hready =>
        exact ⟨hwaiters, hinterrupters, hregistered, hready⟩
    | waiting w hhandle' | finishing w b hhandle' =>
        rw [hhandle] at hhandle'
        rw [Option.some.inj hhandle'] at hfree
        cases hfree
    | collected hhandle' =>
        rw [hhandle] at hhandle'
        cases hhandle'
  refine ⟨fun _ => ?_, h.story.begin hvalid f, ?_, ?_, ?_, ?_⟩
  · refine .waiting ⟨s.next, 0, f⟩ ?_ ?_ ?_ ?_ hready ?_
    · rw [hhd]
    · rw [hwaiters]
    · rw [hinterrupters]
      cases interruptible with
      | true => exact .inl rfl
      | false => exact .inr rfl
    · rw [hregistered, List.nil_append]
    · intro hin
      rcases List.mem_cons.mp hin with heq | hin
      · cases heq
      · exact Nat.lt_irrefl _ ((h.story.numbered hvalid).fresh _ (h.story.asked _ hin))
  · intro hclosed
    rw [hvalid] at hclosed
    cases hclosed
  · have hlicence := h.licence
    unfold State.licences at hlicence ⊢
    rw [hhandle] at hlicence
    simpa [hregistered] using hlicence
  · intro hd' heq _
    rw [hhd] at heq
    rw [← Option.some.inj heq]
    exact ⟨rfl, fun w hin => hnot w ((ended_cons (e := .begun ⟨s.next, 0, f⟩) nofun w _).mp hin)⟩
  · intro hd' heq hreaper'
    rw [hhd] at heq
    rw [← Option.some.inj heq] at hreaper'
    cases hreaper'

theorem Inv.interrupt (h : Inv s) {w : Wait} (hin : w ∈ s.interrupters) :
    Inv { s with
      registered := []
      ready := s.ready ++ s.registered.map fun op => (op, true)
      interrupters := s.interrupters.erase w
      log := .asked w :: s.log } := by
  have hvalid := h.valid_of_interrupter hin
  obtain ⟨hhandle, hwaiters, hone, hplace⟩ := (h.phase hvalid).of_interrupter hin
  have hbegun : .begun w ∈ s.log :=
    (h.story.undecided hvalid (hwaiters ▸ List.mem_singleton_self w)).1
  have hnobody : s.interrupters.erase w = [] := by
    rw [hone]
    exact List.erase_cons_head ..
  refine h.of_same (fun _ => ?_) (h.story.event nofun nofun nofun (fun w' heq => Event.asked.inj heq ▸ hbegun) nofun)
    rfl rfl (fun _ => rfl) (fun hempty _ => ⟨hempty, hnobody⟩) (ended_cons nofun) ?_
  · rcases hplace with ⟨hregistered, hready⟩ | ⟨hregistered, b, hready, hchild⟩
    · refine .finishing w true hhandle hwaiters (.inr hnobody) rfl ?_ nofun
      simp only [hregistered, hready]
      rfl
    · refine .finishing w b hhandle hwaiters (.inr hnobody) rfl ?_ hchild
      simp only [hregistered, hready]
      rfl
  · unfold State.licences
    rw [@count_reaped_cons s.log 0 (.asked w) nofun]
    rcases hplace with ⟨hregistered, hready⟩ | ⟨hregistered, b, hready, hchild⟩ <;>
      simp [hregistered, hready]

theorem Inv.complete (h : Inv s) {op : Op} (hchild : s.child ≠ none) (hin : op ∈ s.registered) :
    Inv { s with registered := s.registered.erase op, ready := s.ready ++ [(op, false)] } := by
  refine h.of_same (fun hvalid => ?_) h.story rfl rfl (fun _ => rfl) .intro (fun _ _ => .rfl) ?_
  · cases h.phase hvalid with
    | idle _ _ _ _ _ hregistered =>
        rw [hregistered] at hin
        cases hin
    | waiting w hhandle hwaiters hinterrupters hregistered hready hasked =>
        rw [hregistered, List.mem_singleton] at hin
        refine .finishing w false hhandle hwaiters hinterrupters ?_ ?_ fun _ => hchild
        · simp only [hregistered, hin]
          exact List.erase_cons_head ..
        · simp only [hready, hin]
          rfl
    | finishing w b _ _ _ hregistered =>
        rw [hregistered] at hin
        cases hin
    | collected hhandle hwaiters hinterrupters hregistered hready =>
        refine .collected hhandle hwaiters hinterrupters ?_ ?_
        · exact fun w hw => hregistered w (List.mem_of_mem_erase hw)
        · intro w b hw
          rcases List.mem_append.mp hw with hw | hw
          · exact hready w b hw
          · obtain ⟨rfl, -⟩ := Prod.mk.inj (List.mem_singleton.mp hw)
            exact hregistered w hin
  · unfold State.licences
    simp only [List.countP_append, List.countP_singleton, decide_eq_true_eq, List.count_erase]
    by_cases hop : op = .gcReap
    · have hpos := List.count_pos_iff.mpr (hop ▸ hin)
      rw [hop]
      simp only [beq_self_eq_true, if_true]
      omega
    · have hne : (op == Op.gcReap) = false := by
        rw [beq_eq_false_iff_ne]
        exact hop
      rw [hne, if_neg hop]
      simp

theorem countP_erase_wait (ready : List (Op × Bool)) (w : Wait) (b : Bool) :
    (ready.erase (.wait w, b)).countP (·.1 = .gcReap) = ready.countP (·.1 = .gcReap) := by
  rw [List.countP_erase]
  simp

theorem Inv.late (h : Inv s) {w : Wait} {aborted : Bool} (hvalid : s.valid = false) :
    Inv { s with ready := s.ready.erase (.wait w, aborted) } := by
  refine h.of_same (fun hs => ?_) h.story rfl rfl (fun _ => rfl) .intro (fun _ _ => .rfl) ?_
  · rw [hvalid] at hs
    cases hs
  · unfold State.licences
    rw [countP_erase_wait]

/-- The fiber that waits is resumed. -/
theorem Inv.resume (h : Inv s) {w : Wait} {o : Outcome} {hd : Handle} {aborted : Bool} {log : List Event}
    (hstory : Story s.valid s.waiters s.next log) (hvalid : s.valid = true) (hwaiters : s.waiters = [w])
    (hregistered : s.registered = []) (hready : s.ready = [(.wait w, aborted)])
    (hinterrupters : s.interrupters = [w] ∨ s.interrupters = []) (hfree : hd.waitInProgress = false)
    (hlicence : (if hd.reaper then 1 else 0) + log.count (.reaped 0) ≤ 1)
    (hknown : hd.reaper = true → hd.info = none ∧ o = .interrupted ∧ ∀ w, .ended w .exited ∉ log)
    (hgone : hd.reaper = false → o = .exited ∧ ∃ e, s.child = some e ∧ hd.info = some e) :
    Inv (({ s with
      ready := s.ready.erase (.wait w, aborted)
      handle := some hd
      log := .ended w o :: log } : State).resume w o) := by
  have hin : w ∈ s.waiters := hwaiters ▸ List.mem_singleton_self w
  have hnodup : s.waiters.Nodup := hwaiters ▸ List.nodup_singleton w
  refine ⟨fun _ => ?_, hstory.resume hvalid hin hnodup o, fun hclosed => ?_, ?_, ?_, ?_⟩
  · refine .idle hd rfl hfree ?_ ?_ hregistered ?_
    · simp only [State.resume, hwaiters]
      exact List.erase_cons_head ..
    · rcases hinterrupters with hone | hnone
      · simp only [State.resume, hone]
        exact List.erase_cons_head ..
      · simp only [State.resume, hnone]
        rfl
    · simp only [State.resume, hready]
      exact List.erase_cons_head ..
  · simp only [State.resume] at hclosed
    rw [hvalid] at hclosed
    cases hclosed
  · unfold State.licences
    simp only [State.resume, Option.any_some, hregistered, hready]
    rw [count_reaped_cons (e := .resumed w o) nofun, count_reaped_cons (e := .ended w o) nofun,
      List.erase_cons_head, List.count_nil, List.countP_nil]
    exact hlicence
  · intro hd' heq hreaper
    obtain rfl := Option.some.inj heq
    obtain ⟨hinfo, hout, hnot⟩ := hknown hreaper
    refine ⟨hinfo, fun w' hin' => ?_⟩
    rcases List.mem_cons.mp ((ended_cons (e := .resumed w o) nofun w' _).mp hin') with heq' | hin'
    · rw [(Event.ended.inj heq').2.symm] at hout
      cases hout
    · exact hnot w' hin'
  · intro hd' heq hreaper
    obtain rfl := Option.some.inj heq
    obtain ⟨rfl, e, he, hinfo⟩ := hgone hreaper
    refine ⟨w, e, (h.story.undecided hvalid hin).2.1, ?_, he, hinfo⟩
    exact List.mem_cons_of_mem _ (List.mem_cons_self ..)

/-- The handler of the destructor reaps the child. -/
theorem Inv.reap (h : Inv s) {b : Bool} (hin : (.gcReap, b) ∈ s.ready) :
    Inv { s with ready := s.ready.erase (.gcReap, b), log := .reaped 0 :: s.log } := by
  have hpos : 0 < s.ready.countP (·.1 = .gcReap) :=
    List.countP_pos_iff.mpr ⟨(.gcReap, b), hin, by simp⟩
  have hlicence := h.licence
  have hnone : s.handle = none := by
    cases hvalid : s.valid with
    | false => exact (h.closed hvalid).1
    | true =>
        cases h.phase hvalid with
        | idle _ _ _ _ _ _ hready | waiting _ _ _ _ _ hready =>
            rw [hready] at hin
            cases hin
        | finishing _ _ _ _ _ _ hready =>
            rw [hready, List.mem_singleton] at hin
            cases hin
        | collected hhandle => exact hhandle
  refine ⟨fun hvalid => ?_, h.story.event nofun nofun nofun nofun nofun, h.closed, ?_, ?_, ?_⟩
  · cases h.phase hvalid with
    | idle _ hhandle | waiting _ hhandle | finishing _ _ hhandle =>
        rw [hnone] at hhandle
        cases hhandle
    | collected hhandle hwaiters hinterrupters hregistered hready =>
        exact .collected hhandle hwaiters hinterrupters hregistered fun w b' hw =>
          hready w b' (List.mem_of_mem_erase hw)
  · unfold State.licences at hlicence ⊢
    simp only [List.count_cons_self, List.countP_erase, hin, decide_true, true_and, if_true]
    omega
  · intro hd hhandle
    rw [hnone] at hhandle
    cases hhandle
  · intro hd hhandle
    rw [hnone] at hhandle
    cases hhandle

/-- What the destructor leaves behind. -/
theorem Inv.destroy (h : Inv s) :
    s.destroy.handle = none ∧ s.destroy.licences = s.licences ∧
      Story s.valid s.waiters s.next s.destroy.log := by
  unfold State.destroy
  split
  · rename_i b info hhandle
    have hunreaped := h.unreaped hhandle rfl
    have hlicences : ∀ log : List Event, log.count (.reaped 0) = s.log.count (.reaped 0) →
        ({ s with handle := none, registered := s.registered ++ [.gcReap], log := log } : State).licences =
          s.licences := by
      intro log hlog
      unfold State.licences
      simp only [hhandle, Option.any_none, Option.any_some, List.count_append, List.count_singleton_self, hlog]
      simp
      omega
    cases s.signal with
    | true =>
        exact ⟨rfl, hlicences _ (count_reaped_cons nofun),
          h.story.event (e := .signalled 0) nofun nofun nofun nofun fun _ => hunreaped⟩
    | false => exact ⟨rfl, hlicences _ rfl, h.story⟩
  · rename_i hno
    refine ⟨rfl, ?_, h.story⟩
    unfold State.licences
    have hreaper : s.handle.any Handle.reaper = false := by
      cases hhandle : s.handle with
      | none => rfl
      | some hd =>
          obtain ⟨reaper, b, info⟩ := hd
          cases reaper with
          | true => exact absurd hhandle (hno b info)
          | false => rfl
    rw [hreaper]
    rfl

theorem destroy_frame (s : State) : s.destroy.waiters = s.waiters ∧ s.destroy.interrupters = s.interrupters ∧
    s.destroy.ready = s.ready ∧ s.destroy.next = s.next ∧ s.destroy.valid = s.valid ∧
    ∀ w, .wait w ∈ s.destroy.registered → .wait w ∈ s.registered := by
  unfold State.destroy
  split
  · refine ⟨rfl, rfl, rfl, rfl, rfl, fun w hw => ?_⟩
    rcases List.mem_append.mp hw with hw | hw
    · exact hw
    · cases List.mem_singleton.mp hw
  · exact ⟨rfl, rfl, rfl, rfl, rfl, fun _ h => h⟩

theorem Inv.collect (h : Inv s) (hvalid : s.valid = true) (hwaiters : s.waiters = []) : Inv s.destroy := by
  obtain ⟨hw, hi, hr, hn, hv, hreg⟩ := destroy_frame s
  obtain ⟨hhandle, hlicences, hstory⟩ := h.destroy
  refine ⟨fun _ => ?_, ?_, fun hclosed => ?_, ?_, fun hd hh => ?_, fun hd hh => ?_⟩
  · have hempty : s.interrupters = [] ∧ (∀ w, .wait w ∉ s.registered) ∧ ∀ w b, (.wait w, b) ∉ s.ready := by
      cases h.phase hvalid with
      | idle _ _ _ _ hinterrupters hregistered hready =>
          rw [hregistered, hready]
          exact ⟨hinterrupters, nofun, nofun⟩
      | waiting w _ hone | finishing w _ _ hone =>
          rw [hwaiters] at hone
          cases hone
      | collected _ _ hinterrupters hregistered hready => exact ⟨hinterrupters, hregistered, hready⟩
    refine .collected hhandle (hw.trans hwaiters) (hi.trans hempty.1) ?_ ?_
    · exact fun w hin => hempty.2.1 w (hreg w hin)
    · rw [hr]
      exact hempty.2.2
  · rw [hv, hw, hn]
    exact hstory
  · rw [hv, hvalid] at hclosed
    cases hclosed
  · rw [hlicences]
    exact h.licence
  · rw [hhandle] at hh
    cases hh
  · rw [hhandle] at hh
    cases hh

theorem Inv.close (h : Inv s) : Inv { s.destroy with valid := false, waiters := [], interrupters := [] } := by
  obtain ⟨hhandle, hlicences, hstory⟩ := h.destroy
  refine ⟨nofun, ?_, fun _ => ⟨hhandle, rfl, rfl⟩, ?_, fun hd hh => ?_, fun hd hh => ?_⟩
  · have hclosed := hstory.close
    rw [← (destroy_frame s).2.2.2.1] at hclosed
    exact hclosed
  · change s.destroy.licences ≤ 1
    rw [hlicences]
    exact h.licence
  · simp only [hhandle] at hh
    cases hh
  · simp only [hhandle] at hh
    cases hh

theorem Moves.inv (hmoves : Moves s s') (h : Inv s) : Inv s' := by
  cases hmoves with
  | wait hd f interruptible hvalid hhandle hreaper hfree => exact h.wait f interruptible hvalid hhandle hreaper hfree
  | interrupt w hin => exact h.interrupt hin
  | kill hd hhandle hreaper => exact h.kill hhandle hreaper
  | exit e hchild => exact h.exit e hchild
  | complete op hchild hin => exact h.complete hchild hin
  | late w aborted hvalid hin => exact h.late hvalid
  | reap b hin => exact h.reap hin
  | collect hvalid hwaiters => exact h.collect hvalid hwaiters
  | close hvalid => exact h.close
  | interrupted w hd hvalid hhandle hin =>
      obtain ⟨hhd, hwaiters, hinterrupters, hregistered, hready, -⟩ := (h.phase hvalid).of_ready hin
      rw [hhandle] at hhd
      obtain rfl := Option.some.inj hhd
      refine h.resume h.story hvalid hwaiters hregistered hready hinterrupters rfl ?_
        (fun _ => ⟨rfl, rfl, (h.known _ hhandle rfl).2⟩) nofun
      have hzero := List.count_eq_zero.mpr (h.unreaped hhandle rfl)
      simp [hzero]
  | exited w hd hvalid hhandle hin =>
      obtain ⟨hhd, hwaiters, hinterrupters, hregistered, hready, hchild⟩ := (h.phase hvalid).of_ready hin
      rw [hhandle] at hhd
      obtain rfl := Option.some.inj hhd
      obtain ⟨e, he⟩ := Option.ne_none_iff_exists'.mp (hchild rfl)
      have hreaped := h.story.event (e := .reaped 0) nofun nofun nofun nofun nofun
      refine h.resume hreaped hvalid hwaiters hregistered hready hinterrupters rfl ?_
        nofun fun _ => ⟨rfl, e, he, he⟩
      have hzero := List.count_eq_zero.mpr (h.unreaped hhandle rfl)
      simp [hzero]

theorem reachable_inv (h : Reachable machine.initial machine.Step s) : Inv s := by
  refine h.invariant ?_ fun s a s' hs hstep => (moves_of_exec hstep).inv hs
  rintro s ⟨signal, rfl⟩
  exact .start signal

theorem Inv.lawful (h : Inv s) : Lawful 0 (machine.view s 0) where
  once := h.story.once
  kept hvalid w hw := (h.story.numbered hvalid).exclusive w hw
  waitable hvalid halive hno := by
    obtain ⟨hd, hhandle⟩ := Option.isSome_iff_exists.mp halive
    simp only [machine]
    rw [hhandle]
    have hreaper : hd.reaper = true := by
      by_contra hnot
      obtain ⟨w, e, hproc, hended, -⟩ := h.gone hd hhandle (by simpa using hnot)
      exact hno w hproc hended
    refine ⟨hreaper, ?_, fun hbusy => ?_⟩
    · rw [Option.bind_some, (h.known hd hhandle hreaper).1]
      rfl
    · have hone : ∃ w, s.waiters = [w] := by
        cases h.phase hvalid with
        | idle hd' hhandle' hfree =>
            rw [hhandle] at hhandle'
            rw [Option.some.inj hhandle'] at hbusy
            exact absurd hbusy (by simp [hfree])
        | waiting w _ hwaiters | finishing w _ _ hwaiters => exact ⟨w, hwaiters⟩
        | collected hnone =>
            rw [hhandle] at hnone
            cases hnone
      obtain ⟨w, hw⟩ := hone
      have hin : w ∈ s.waiters := hw ▸ List.mem_singleton_self w
      exact ⟨w, hin, (h.story.undecided hvalid hin).2⟩
  code c hc := by
    obtain ⟨e, he, rfl⟩ := Option.map_eq_some_iff.mp hc
    obtain ⟨hd, hhandle, hinfo⟩ := Option.bind_eq_some_iff.mp he
    have hreaper : hd.reaper = false := by
      by_contra hnot
      rw [(h.known hd hhandle (by simpa using hnot)).1] at hinfo
      cases hinfo
    obtain ⟨w, e', hproc, hended, hchild, hinfo'⟩ := h.gone hd hhandle hreaper
    obtain rfl := Option.some.inj (hinfo.symm.trans hinfo')
    exact ⟨w, e, hproc, hended, hchild, rfl⟩
  reaped := by
    have hlicence := h.licence
    unfold State.licences at hlicence
    change s.log.count (.reaped 0) ≤ 1
    omega
  signals := h.story.signals

/-- A handler that is ready resumes its fiber. -/
theorem Inv.run (h : Inv s) (hvalid : s.valid = true) {w : Wait} {aborted : Bool}
    (hin : (.wait w, aborted) ∈ s.ready) : ∃ s', machine.Runs s s' ∧ w ∈ resumed s'.log := by
  obtain ⟨hhandle, -⟩ := (h.phase hvalid).of_ready hin
  have hexec : exec s (.run (.wait w) aborted) =
      ({ s with ready := s.ready.erase (.wait w, aborted) } : State).onWait w aborted := by
    simp only [exec]
    rw [if_pos hin]
  unfold State.onWait at hexec
  simp only [hvalid, Bool.true_eq_false, if_false, hhandle] at hexec
  cases aborted with
  | true =>
      rw [if_pos rfl] at hexec
      exact ⟨_, ⟨Action.run (.wait w) true, rfl, hexec⟩, List.mem_cons_self ..⟩
  | false =>
      rw [if_neg Bool.false_ne_true] at hexec
      exact ⟨_, ⟨Action.run (.wait w) false, rfl, hexec⟩, List.mem_cons_self ..⟩

theorem Inv.resumes (h : Inv s) (hvalid : s.valid = true) {w : Wait} (hin : w ∈ s.waiters)
    (hdue : s.child ≠ none ∨ .asked w ∈ s.log) :
    ∃ s', ReflTransGen machine.Runs s s' ∧ w ∈ resumed s'.log := by
  cases h.phase hvalid with
  | idle _ _ _ hwaiters | collected _ hwaiters =>
      rw [hwaiters] at hin
      cases hin
  | finishing w' b hhandle hwaiters hinterrupters hregistered hready =>
      rw [hwaiters, List.mem_singleton] at hin
      subst hin
      obtain ⟨s', hrun, hresumed⟩ := h.run hvalid (hready ▸ List.mem_singleton_self _)
      exact ⟨s', .single hrun, hresumed⟩
  | waiting w' hhandle hwaiters hinterrupters hregistered hready hasked =>
      rw [hwaiters, List.mem_singleton] at hin
      subst hin
      have hchild : s.child ≠ none := hdue.resolve_right hasked
      have hregs : .wait w ∈ s.registered := hregistered ▸ List.mem_singleton_self _
      have hcomplete : exec s (.complete (.wait w)) = .ok { s with
          registered := s.registered.erase (.wait w), ready := s.ready ++ [(.wait w, false)] } := by
        simp only [exec]
        rw [if_pos ⟨hchild, hregs⟩]
      have hnext := (moves_of_exec hcomplete).inv h
      obtain ⟨s', hrun, hresumed⟩ := @Inv.run _ hnext hvalid w false
        (List.mem_append_right _ (List.mem_singleton_self _))
      exact ⟨s', .head ⟨Action.complete (.wait w), rfl, hcomplete⟩ (.single hrun), hresumed⟩

theorem Inv.defined (h : Inv s) (a : Action) : exec s a ≠ .error .undefined := by
  cases a with
  | wait f interruptible =>
      simp only [exec, State.subprocessWait]
      repeat' split
      all_goals exact nofun
  | kill =>
      simp only [exec, State.subprocessKill]
      repeat' split
      all_goals exact nofun
  | exit | complete | collect | close =>
      simp only [exec]
      split <;> exact nofun
  | interrupt f =>
      simp only [exec]
      split
      · rename_i w hfind
        have hin := List.mem_of_find?_eq_some hfind
        obtain ⟨hhandle, -⟩ := (h.phase (h.valid_of_interrupter hin)).of_interrupter hin
        unfold State.interrupt
        rw [hhandle]
        exact nofun
      · exact nofun
  | run op aborted =>
      simp only [exec]
      split
      · rename_i hin
        cases op with
        | gcReap => exact nofun
        | wait w =>
            simp only [State.onWait]
            split
            · exact nofun
            · rename_i hvalid
              obtain ⟨hhandle, -⟩ := (h.phase (by simpa using hvalid)).of_ready hin
              rw [hhandle]
              cases aborted <;> exact nofun
      · exact nofun

/-- The machine of Linux behaves as expected in every run. -/
theorem sound (h : Reachable machine.initial machine.Step s) : machine.Sound s := by
  have hinv := reachable_inv h
  refine ⟨?_, ?_, hinv.defined⟩
  · rintro p rfl
    exact hinv.lawful
  · rintro p rfl w hin - hvalid hdue
    exact hinv.resumes hvalid hin hdue

end Emilua.Subprocess.Linux
