import Emilua.Subprocess.Lifecycle
import Mathlib.Logic.Function.Basic

/-!
`subprocess` on FreeBSD: the events of the process descriptors in the kqueues of
`procdesc_service`. A kqueue is shared by the children that are waited for.
-/
namespace Emilua.Subprocess.FreeBSD
open Transition Relation

/-- `subprocess`, and the child behind its descriptor. -/
structure Proc where
  child : Option Exit
  daemon : Bool
  alive : Bool
  pdfd : Bool
  fiber : Option Wait
  status : Option Exit
deriving DecidableEq, Repr

/-- `procdesc_service`. `events` has the children whose exit is registered,
`armed` and `queued` count the calls of `async_wait` that wait for the kqueue and
those whose handler is in the strand. -/
structure Service where
  running : Bool
  nwaiters : Nat
  events : List Nat
  armed : Nat
  queued : Nat
deriving DecidableEq, Repr

/-- `created` services are in `pending_operations`. `posted` has the calls of
`fiber_resume` in the strand. -/
structure State where
  valid : Bool
  procs : Nat → Proc
  created : Nat
  services : Nat → Service
  posted : List (Wait × Outcome)
  waiters : List Wait
  interrupters : List (Wait × Nat)
  next : Nat
  log : List Event

/-- Nothing is waited for. `daemon` has the children that have been given `pd_daemon`. -/
def State.start (daemon : Nat → Bool) : State where
  valid := true
  procs p := ⟨none, daemon p, true, true, none, none⟩
  created := 0
  services _ := ⟨false, 0, [], 0, 0⟩
  posted := []
  waiters := []
  interrupters := []
  next := 0
  log := []

/-- `reuse` says that the last pending operation is a `procdesc_service`. -/
inductive Action where
  | wait (p : Nat) (f : Fiber) (interruptible reuse : Bool)
  | interrupt (f : Fiber)
  | kill (p : Nat)
  | exit (p : Nat) (e : Exit)
  | ready (k : Nat)
  | onWait (k : Nat)
  | resume (w : Wait) (o : Outcome)
  | collect (p : Nat)
  | close
deriving DecidableEq, Repr

namespace State

def setProc (s : State) (p : Nat) (pr : Proc) : State :=
  { s with procs := Function.update s.procs p pr }

def setService (s : State) (k : Nat) (sv : Service) : State :=
  { s with services := Function.update s.services k sv }

/-- The services are appended to the pending operations and stay there, so that
the last operation is the latest service, if it is one. -/
def subprocessWait (s : State) (p : Nat) (f : Fiber) (interruptible reuse : Bool) : Except Refusal State :=
  let pr := s.procs p
  if pr.pdfd = false then .error .noChildProcess
  else if pr.fiber.isSome then .error .deviceOrResourceBusy
  else if reuse ∧ s.created = 0 then .error .disabled
  else
    let k := if reuse then s.created - 1 else s.created
    let sv := s.services k
    let w : Wait := ⟨s.next, p, f⟩
    let s := s.setService k { sv with
      running := true
      nwaiters := sv.nwaiters + 1
      events := p :: sv.events
      armed := if sv.running then sv.armed else sv.armed + 1 }
    let s := s.setProc p { pr with fiber := some w }
    .ok { s with
      created := if reuse then s.created else s.created + 1
      waiters := w :: s.waiters
      interrupters := if interruptible then (w, k) :: s.interrupters else s.interrupters
      next := s.next + 1
      log := .begun w :: s.log }

/-- The interrupter, which does nothing when `EV_DELETE` finds no event. -/
def interrupt (s : State) (w : Wait) (k : Nat) : Except Refusal State :=
  let p := w.proc
  let pr := s.procs p
  let sv := s.services k
  let s := { s with interrupters := s.interrupters.filter fun i => i.1 ≠ w, log := .asked w :: s.log }
  if pr.pdfd ∧ p ∈ sv.events then
    match pr.fiber with
    | some fiber =>
        if sv.nwaiters = 0 then .error .undefined
        else
          let s := s.setService k { sv with nwaiters := sv.nwaiters - 1, events := sv.events.erase p }
          let s := s.setProc p { pr with fiber := none }
          .ok { s with
            posted := s.posted ++ [(fiber, .interrupted)]
            log := .ended fiber .interrupted :: s.log }
    | none => .error .undefined
  else .ok s

def subprocessKill (s : State) (p : Nat) : Except Refusal State :=
  if (s.procs p).pdfd = false then .error .noSuchProcess
  else .ok { s with log := .signalled p :: s.log }

/-- `subprocess::close`. The events go with the descriptor, and a child that still
runs is killed, except for a daemon. -/
def closePdfd (s : State) (p : Nat) : State :=
  let pr := s.procs p
  if pr.pdfd then
    let s := s.setProc p { pr with pdfd := false }
    { s with
      services := fun k => { s.services k with events := (s.services k).events.erase p }
      log := .reaped p :: if pr.daemon ∨ pr.child.isSome then s.log else .signalled p :: s.log }
  else s

/-- An iteration of the loop of `on_wait`. -/
def exited (k : Nat) (s : State) (p : Nat) : Except Refusal State :=
  match (s.procs p).fiber with
  | some fiber =>
      let s := (s.setProc p { s.procs p with status := (s.procs p).child }).closePdfd p
      let sv := s.services k
      if sv.nwaiters = 0 then .error .undefined
      else
        let s := s.setService k { sv with nwaiters := sv.nwaiters - 1 }
        .ok { s with
          posted := s.posted ++ [(fiber, .exited)]
          log := .ended fiber .exited :: s.log }
  | none => .error .undefined

/-- `kevent` gives at most as many events as there is room for. -/
def kevent (s : State) (k : Nat) : List Nat :=
  ((s.services k).events.filter fun p => (s.procs p).child.isSome).take (s.services k).nwaiters

def rearm (s : State) (k : Nat) : State :=
  let sv := s.services k
  s.setService k (if 0 < sv.nwaiters then { sv with armed := sv.armed + 1 } else { sv with running := false })

def onWait (s : State) (k : Nat) : Except Refusal State :=
  if s.valid = false then .ok s
  else do
    let s ← (s.kevent k).foldlM (exited k) s
    .ok (s.rearm k)

/-- `fiber_resume`, which clears the interrupter. -/
def resume (s : State) (w : Wait) (o : Outcome) : Except Refusal State :=
  if s.valid = false then .ok s
  else if w ∈ s.waiters then
    .ok { s with
      waiters := s.waiters.erase w
      interrupters := s.interrupters.filter fun i => i.1 ≠ w
      log := .resumed w o :: s.log }
  else .error .undefined

end State

def exec (s : State) : Action → Except Refusal State
  | .wait p f interruptible reuse =>
      if s.valid ∧ (s.procs p).alive ∧ ∀ w ∈ s.waiters, w.fiber ≠ f then
        s.subprocessWait p f interruptible reuse
      else .error .disabled
  | .interrupt f =>
      match s.interrupters.find? (·.1.fiber == f) with
      | some (w, k) => s.interrupt w k
      | none => .error .disabled
  | .kill p => if s.valid ∧ (s.procs p).alive then s.subprocessKill p else .error .disabled
  | .exit p e =>
      if (s.procs p).child = none then .ok (s.setProc p { s.procs p with child := some e })
      else .error .disabled
  | .ready k =>
      let sv := s.services k
      if 0 < sv.armed ∧ ∃ p ∈ sv.events, (s.procs p).child ≠ none then
        .ok (s.setService k { sv with armed := sv.armed - 1, queued := sv.queued + 1 })
      else .error .disabled
  | .onWait k =>
      let sv := s.services k
      if 0 < sv.queued then (s.setService k { sv with queued := sv.queued - 1 }).onWait k
      else .error .disabled
  | .resume w o =>
      if (w, o) ∈ s.posted then { s with posted := s.posted.erase (w, o) }.resume w o
      else .error .disabled
  -- a fiber in `wait` has the handle on its stack, and `lua_close` collects every handle
  | .collect p =>
      if (s.procs p).alive ∧ (s.valid → ∀ w ∈ s.waiters, w.proc ≠ p) then
        let s := s.closePdfd p
        .ok (s.setProc p { s.procs p with alive := false })
      else .error .disabled
  | .close =>
      if s.valid then .ok { s with valid := false, waiters := [], interrupters := [] }
      else .error .disabled

def machine : Machine where
  State := State
  Action := Action
  procs _ := True
  initial s := ∃ daemon, s = .start daemon
  exec := exec
  runtime
    | .ready _ | .onWait _ | .resume _ _ => true
    | _ => false
  view s p :=
    { valid := s.valid
      alive := (s.procs p).alive
      isOpen := (s.procs p).pdfd
      busy := (s.procs p).fiber.isSome
      exitCode := (s.procs p).status.map Exit.code
      child := (s.procs p).child
      waiting := s.waiters
      log := s.log }

/-! What holds in every run. -/

/-- A child and its descriptor. -/
structure Owned (p : Nat) (pr : Proc) (log : List Event) : Prop where
  licence : (if pr.pdfd then 1 else 0) + log.count (.reaped p) ≤ 1
  signals : ∀ pre post, log = post ++ .signalled p :: pre → .reaped p ∉ pre
  unended : pr.pdfd = true → pr.status = none ∧ ∀ w, w.proc = p → .ended w .exited ∉ log
  code : ∀ e, pr.status = some e → ∃ w, w.proc = p ∧ .ended w .exited ∈ log ∧ pr.child = some e

/-- The waits. -/
structure Diary (valid : Bool) (waiters : List Wait) (next : Nat) (log : List Event) : Prop where
  numbered : valid = true → Numbered log waiters next
  once : (resumed log).Nodup
  nodup : waiters.Nodup
  ended : ∀ w o, .ended w o ∈ log → .begun w ∈ log
  asked : ∀ w, .asked w ∈ log → .begun w ∈ log

/-- The exit of `p` is registered in the service `k`. -/
def Pending (s : State) (k p : Nat) (w : Wait) : Prop :=
  (s.procs p).pdfd = true ∧ (s.procs p).fiber = some w ∧ w.proc = p ∧ w ∈ s.waiters ∧
    (∀ o, .ended w o ∉ s.log) ∧ .asked w ∉ s.log ∧ ∀ j, (w, j) ∈ s.interrupters → j = k

/-- The events and the handlers. -/
structure Queues (s : State) : Prop where
  placed : ∀ w ∈ s.waiters, (∃ o, (w, o) ∈ s.posted) ∨
    ∃ k, w.proc ∈ (s.services k).events ∧ (s.procs w.proc).fiber = some w
  event : ∀ k, ∀ p ∈ (s.services k).events, ∃ w, Pending s k p w
  single : ∀ k j p, p ∈ (s.services k).events → p ∈ (s.services j).events → k = j
  room : ∀ k, (s.services k).nwaiters = (s.services k).events.length
  nodup : ∀ k, (s.services k).events.Nodup
  busy : ∀ p, (s.procs p).fiber.isSome → (s.procs p).pdfd = true → ∃ k, p ∈ (s.services k).events
  posted : ∀ w o, (w, o) ∈ s.posted → w ∈ s.waiters ∧ ∃ o, .ended w o ∈ s.log
  distinct : (s.posted.map Prod.fst).Nodup
  interrupters : ∀ w k, (w, k) ∈ s.interrupters → w ∈ s.waiters ∧ (s.procs w.proc).fiber = some w
  gone : ∀ p, (s.procs p).alive = true → (s.procs p).pdfd = false → (s.procs p).status ≠ none

/-- The kqueue of a service that has events is waited for. -/
def Served (sv : Service) : Prop :=
  (sv.running = true ∨ sv.events ≠ []) → 0 < sv.armed + sv.queued

structure Core (s : State) : Prop where
  owned : ∀ p, Owned p (s.procs p) s.log
  diary : Diary s.valid s.waiters s.next s.log
  queues : s.valid = true → Queues s
  closed : s.valid = false → s.interrupters = []

structure Inv (s : State) : Prop extends Core s where
  served : s.valid = true → ∀ k, Served (s.services k)

variable {s s' : State} {p : Nat} {pr : Proc} {log : List Event}

/-- An event that is not the end of the child. -/
theorem Owned.event (h : Owned p pr log) {e : Event} (hreaped : e ≠ .reaped p)
    (hsignalled : e = .signalled p → pr.pdfd = true) (hended : ∀ w, e = .ended w .exited → w.proc ≠ p) :
    Owned p pr (e :: log) where
  licence := by
    rw [count_reaped_cons hreaped]
    exact h.licence
  signals := by
    refine signals_cons h.signals fun heq hin => ?_
    have hpos := List.count_pos_iff.mpr hin
    have hlicence := h.licence
    rw [hsignalled heq, if_pos rfl] at hlicence
    omega
  unended hpdfd := by
    refine ⟨(h.unended hpdfd).1, fun w hproc hin => ?_⟩
    rcases List.mem_cons.mp hin with heq | hin
    · exact hended w heq.symm hproc
    · exact (h.unended hpdfd).2 w hproc hin
  code e he := by
    obtain ⟨w, hproc, hin, hchild⟩ := h.code e he
    exact ⟨w, hproc, List.mem_cons_of_mem _ hin, hchild⟩

theorem Owned.exit (h : Owned p pr log) (hchild : pr.child = none) (e : Exit) :
    Owned p { pr with child := some e } log where
  licence := h.licence
  signals := h.signals
  unended := h.unended
  code e' he := by
    obtain ⟨w, -, -, hsome⟩ := h.code e' he
    rw [hchild] at hsome
    cases hsome

/-- The descriptor is closed. -/
theorem Owned.close (h : Owned p pr log) (hpdfd : pr.pdfd = true) :
    Owned p { pr with pdfd := false } (.reaped p :: log) where
  licence := by
    have hlicence := h.licence
    rw [hpdfd, if_pos rfl] at hlicence
    simp only [List.count_cons_self, Bool.false_eq_true, if_false]
    omega
  signals := signals_cons h.signals nofun
  unended := nofun
  code e he := by
    rw [(h.unended hpdfd).1] at he
    cases he

/-- The exit of the child is stored, and its descriptor closed. -/
theorem Owned.finish (h : Owned p pr log) (hpdfd : pr.pdfd = true) {w : Wait} (hproc : w.proc = p) {e : Exit}
    (hchild : pr.child = some e) :
    Owned p { pr with pdfd := false, status := some e } (.ended w .exited :: .reaped p :: log) where
  licence := by
    rw [count_reaped_cons (e := .ended w .exited) nofun]
    exact (h.close hpdfd).licence
  signals := signals_cons (h.close hpdfd).signals nofun
  unended := nofun
  code e' he := by
    rw [← Option.some.inj he]
    exact ⟨w, hproc, List.mem_cons_self .., hchild⟩

variable {valid : Bool} {waiters : List Wait} {next : Nat}

theorem Diary.begin (h : Diary valid waiters next log) (hvalid : valid = true) (p : Nat) (f : Fiber) :
    Diary valid (⟨next, p, f⟩ :: waiters) (next + 1) (.begun ⟨next, p, f⟩ :: log) where
  numbered _ := (h.numbered hvalid).begin p f
  once := h.once
  nodup := List.nodup_cons.mpr
    ⟨fun hin => Nat.lt_irrefl _ ((h.numbered hvalid).fresh _ ((h.numbered hvalid).unresumed _ hin).1), h.nodup⟩
  ended w o hin := by
    rcases List.mem_cons.mp hin with heq | hin
    · cases heq
    · exact List.mem_cons_of_mem _ (h.ended w o hin)
  asked w hin := by
    rcases List.mem_cons.mp hin with heq | hin
    · cases heq
    · exact List.mem_cons_of_mem _ (h.asked w hin)

theorem Diary.event (h : Diary valid waiters next log) {e : Event} (hbegun : ∀ w, e ≠ .begun w)
    (hresumed : ∀ w o, e ≠ .resumed w o) (hended : ∀ w o, e = .ended w o → .begun w ∈ log)
    (hasked : ∀ w, e = .asked w → .begun w ∈ log) : Diary valid waiters next (e :: log) where
  numbered hvalid := (h.numbered hvalid).silent hbegun hresumed
  once := by
    cases e with
    | resumed w o => exact absurd rfl (hresumed w o)
    | begun | asked | ended | signalled | reaped => exact h.once
  nodup := h.nodup
  ended w o hin := by
    rcases List.mem_cons.mp hin with heq | hin
    · exact List.mem_cons_of_mem _ (hended w o heq.symm)
    · exact List.mem_cons_of_mem _ (h.ended w o hin)
  asked w hin := by
    rcases List.mem_cons.mp hin with heq | hin
    · exact List.mem_cons_of_mem _ (hasked w heq.symm)
    · exact List.mem_cons_of_mem _ (h.asked w hin)

theorem Diary.resume (h : Diary valid waiters next log) (hvalid : valid = true) {w : Wait} (hin : w ∈ waiters)
    (o : Outcome) : Diary valid (waiters.erase w) next (.resumed w o :: log) where
  numbered _ := (h.numbered hvalid).resume hin h.nodup o
  once := ((h.numbered hvalid).resume hin h.nodup o).once
  nodup := h.nodup.erase w
  ended w' o' hin' := by
    rcases List.mem_cons.mp hin' with heq | hin'
    · cases heq
    · exact List.mem_cons_of_mem _ (h.ended w' o' hin')
  asked w' hin' := by
    rcases List.mem_cons.mp hin' with heq | hin'
    · cases heq
    · exact List.mem_cons_of_mem _ (h.asked w' hin')

/-- A step that neither ends a wait nor changes the events. -/
theorem Queues.of_same (h : Queues s) (hwaiters : s'.waiters = s.waiters) (hposted : s'.posted = s.posted)
    (hinterrupters : ∀ i ∈ s'.interrupters, i ∈ s.interrupters)
    (hevents : ∀ k, (s'.services k).events = (s.services k).events)
    (hnwaiters : ∀ k, (s'.services k).nwaiters = (s.services k).nwaiters)
    (hfiber : ∀ q, (s'.procs q).fiber = (s.procs q).fiber)
    (hpdfd : ∀ k, ∀ q ∈ (s.services k).events, (s'.procs q).pdfd = (s.procs q).pdfd)
    (hopen : ∀ q, (s'.procs q).pdfd = true → (s.procs q).pdfd = true)
    (hgone : ∀ q, (s'.procs q).alive = true → (s'.procs q).pdfd = false → (s'.procs q).status ≠ none)
    (hended : ∀ w o, .ended w o ∈ s'.log ↔ .ended w o ∈ s.log)
    (hasked : ∀ k, ∀ q ∈ (s.services k).events, ∀ w, Pending s k q w → .asked w ∉ s'.log) : Queues s' where
  placed w hin := by
    rw [hwaiters] at hin
    rcases h.placed w hin with ⟨o, ho⟩ | ⟨k, hk, hw⟩
    · exact .inl ⟨o, hposted ▸ ho⟩
    · exact .inr ⟨k, (hevents k).symm ▸ hk, (hfiber _).trans hw⟩
  event k q hin := by
    rw [hevents] at hin
    obtain ⟨w, hpending⟩ := h.event k q hin
    have hnot := hasked k q hin w hpending
    obtain ⟨hq, hw, hproc, hwait, hno, -, hone⟩ := hpending
    refine ⟨w, (hpdfd k q hin).trans hq, (hfiber q).trans hw, hproc, hwaiters ▸ hwait, fun o hin' => ?_, hnot,
      fun j hj => hone j (hinterrupters _ hj)⟩
    exact hno o ((hended w o).mp hin')
  single k j q hk hj := by
    rw [hevents] at hk hj
    exact h.single k j q hk hj
  room k := by
    rw [hnwaiters, hevents]
    exact h.room k
  nodup k := by
    rw [hevents]
    exact h.nodup k
  busy q hq hpd := by
    rw [hfiber] at hq
    obtain ⟨k, hk⟩ := h.busy q hq (hopen q hpd)
    exact ⟨k, (hevents k).symm ▸ hk⟩
  posted w o hin := by
    obtain ⟨hw, o', ho'⟩ := h.posted w o (hposted ▸ hin)
    exact ⟨hwaiters ▸ hw, o', (hended w o').mpr ho'⟩
  distinct := by
    rw [hposted]
    exact h.distinct
  interrupters w k hin := by
    rw [hwaiters, hfiber]
    exact h.interrupters w k (hinterrupters _ hin)
  gone := hgone

/-- The event of `p` is taken, and the fiber that waits for it is to be resumed. -/
theorem Queues.post (h : Queues s) {k : Nat} {w : Wait} {o : Outcome} (hin : p ∈ (s.services k).events)
    (hfiber : (s.procs p).fiber = some w) (hwaiters : s'.waiters = s.waiters)
    (hposted : s'.posted = s.posted ++ [(w, o)]) (hinterrupters : ∀ i ∈ s'.interrupters, i ∈ s.interrupters)
    (hevents : ∀ j, (s'.services j).events = (s.services j).events.erase p)
    (hnwaiters : (s'.services k).nwaiters = (s.services k).nwaiters - 1)
    (hothers : ∀ j, j ≠ k → (s'.services j).nwaiters = (s.services j).nwaiters)
    (hprocs : ∀ q, q ≠ p → s'.procs q = s.procs q)
    (hidle : (s'.procs p).fiber.isSome → (s'.procs p).pdfd = false)
    (hgone : (s'.procs p).alive = true → (s'.procs p).pdfd = false → (s'.procs p).status ≠ none)
    (hkept : ∀ i ∈ s'.interrupters, i.1.proc = p → (s'.procs p).fiber = some i.1)
    (hended : ∀ w' o', .ended w' o' ∈ s'.log ↔ (w' = w ∧ o' = o) ∨ .ended w' o' ∈ s.log)
    (hasked : ∀ w', w' ≠ w → .asked w' ∈ s'.log → .asked w' ∈ s.log) : Queues s' := by
  obtain ⟨w', hpd, hw', hproc, hwait, hno, hnot, hone⟩ := h.event k p hin
  obtain rfl := Option.some.inj (hfiber.symm.trans hw')
  have hmem : ∀ j q, q ∈ (s'.services j).events ↔ q ≠ p ∧ q ∈ (s.services j).events := by
    intro j q
    rw [hevents]
    exact (h.nodup j).mem_erase_iff
  refine ⟨fun v hv => ?_, fun j q hq => ?_, fun j i q hj hi => ?_, fun j => ?_, fun j => ?_, fun q hq hqpd => ?_,
    fun v r hv => ?_, ?_, fun v j hv => ?_, fun q halive hqpd => ?_⟩
  · rw [hwaiters] at hv
    rcases h.placed v hv with ⟨r, hr⟩ | ⟨j, hj, hvf⟩
    · refine .inl ⟨r, ?_⟩
      rw [hposted]
      exact List.mem_append_left _ hr
    · by_cases heq : v.proc = p
      · rw [heq, hfiber] at hvf
        rw [← Option.some.inj hvf]
        refine .inl ⟨o, ?_⟩
        rw [hposted]
        exact List.mem_append_right _ (List.mem_singleton_self _)
      · refine .inr ⟨j, (hmem j _).mpr ⟨heq, hj⟩, ?_⟩
        rw [hprocs _ heq]
        exact hvf
  · obtain ⟨hne, hq⟩ := (hmem j q).mp hq
    obtain ⟨v, hvpd, hv, hvproc, hvwait, hvno, hvnot, hvone⟩ := h.event j q hq
    have hvw : v ≠ w := by
      rintro rfl
      exact hne (hvproc.symm.trans hproc)
    refine ⟨v, ?_, ?_, hvproc, hwaiters ▸ hvwait, fun r hr => ?_, fun ha => hvnot (hasked v hvw ha),
      fun i hi => hvone i (hinterrupters _ hi)⟩
    · rw [hprocs q hne]
      exact hvpd
    · rw [hprocs q hne]
      exact hv
    · rcases (hended v r).mp hr with ⟨heq, -⟩ | hr
      · exact hvw heq
      · exact hvno r hr
  · exact h.single j i q ((hmem j q).mp hj).2 ((hmem i q).mp hi).2
  · rw [hevents]
    by_cases hj : j = k
    · rw [hj, hnwaiters, h.room, List.length_erase_of_mem hin]
    · rw [hothers j hj, h.room, List.erase_of_not_mem fun hp => hj (h.single j k p hp hin)]
  · rw [hevents]
    exact (h.nodup j).erase p
  · have hne : q ≠ p := by
      rintro rfl
      rw [hidle hq] at hqpd
      cases hqpd
    rw [hprocs q hne] at hq hqpd
    obtain ⟨j, hj⟩ := h.busy q hq hqpd
    exact ⟨j, (hmem j q).mpr ⟨hne, hj⟩⟩
  · rw [hposted] at hv
    rw [hwaiters]
    rcases List.mem_append.mp hv with hv | hv
    · obtain ⟨hvw, r', hr'⟩ := h.posted v r hv
      exact ⟨hvw, r', (hended v r').mpr (.inr hr')⟩
    · obtain ⟨rfl, rfl⟩ := Prod.mk.inj (List.mem_singleton.mp hv)
      exact ⟨hwait, r, (hended v r).mpr (.inl ⟨rfl, rfl⟩)⟩
  · rw [hposted, List.map_append]
    refine List.nodup_append'.mpr ⟨h.distinct, List.nodup_singleton w, ?_⟩
    intro v hv hv'
    obtain rfl : v = w := List.mem_singleton.mp hv'
    obtain ⟨⟨v', r⟩, hr, rfl⟩ := List.mem_map.mp hv
    obtain ⟨-, r', hr'⟩ := h.posted _ _ hr
    exact hno r' hr'
  · obtain ⟨hvwait, hvfiber⟩ := h.interrupters v j (hinterrupters _ hv)
    refine ⟨hwaiters ▸ hvwait, ?_⟩
    by_cases hvp : v.proc = p
    · rw [hvp]
      exact hkept _ hv hvp
    · rw [hprocs _ hvp]
      exact hvfiber
  · by_cases hq : q = p
    · subst hq
      exact hgone halive hqpd
    · rw [hprocs q hq] at halive hqpd ⊢
      exact h.gone q halive hqpd

/-- Every event in a log that has two more is one of them or was there. -/
theorem ended_finished {w : Wait} (w' : Wait) (o : Outcome) :
    .ended w' o ∈ Event.ended w .exited :: .reaped p :: log ↔ (w' = w ∧ o = .exited) ∨ .ended w' o ∈ log := by
  simp

theorem exited_eq {k : Nat} {w : Wait} {e : Exit} (hfiber : (s.procs p).fiber = some w)
    (hpdfd : (s.procs p).pdfd = true) (hchild : (s.procs p).child = some e) (hroom : (s.services k).nwaiters ≠ 0) :
    s.exited k p = .ok { s with
      procs := Function.update s.procs p { s.procs p with pdfd := false, status := some e }
      services := Function.update (fun j => { s.services j with events := (s.services j).events.erase p }) k
        { s.services k with
          nwaiters := (s.services k).nwaiters - 1
          events := (s.services k).events.erase p }
      posted := s.posted ++ [(w, .exited)]
      log := .ended w .exited :: .reaped p :: s.log } := by
  unfold State.exited
  rw [hfiber]
  simp [State.closePdfd, State.setProc, State.setService, hpdfd, hchild, hroom]

/-- What the loop of `on_wait` leaves alone, and what it adds. -/
structure Loops (s s' : State) : Prop where
  valid : s'.valid = s.valid
  waiters : s'.waiters = s.waiters
  posted : ∀ i ∈ s.posted, i ∈ s'.posted
  running : ∀ j, (s'.services j).running = (s.services j).running
  calls : ∀ j, (s'.services j).armed = (s.services j).armed ∧ (s'.services j).queued = (s.services j).queued
  events : ∀ j, ∀ q ∈ (s'.services j).events, q ∈ (s.services j).events

theorem Loops.refl (s : State) : Loops s s :=
  ⟨rfl, rfl, fun _ h => h, fun _ => rfl, fun _ => ⟨rfl, rfl⟩, fun _ _ h => h⟩

theorem Loops.trans {s'' : State} (h : Loops s s') (h' : Loops s' s'') : Loops s s'' where
  valid := h'.valid.trans h.valid
  waiters := h'.waiters.trans h.waiters
  posted i hi := h'.posted i (h.posted i hi)
  running j := (h'.running j).trans (h.running j)
  calls j := ⟨(h'.calls j).1.trans (h.calls j).1, (h'.calls j).2.trans (h.calls j).2⟩
  events j q hq := h.events j q (h'.events j q hq)

theorem Core.exited (h : Core s) (hvalid : s.valid = true) {k : Nat} (hin : p ∈ (s.services k).events)
    (hchild : (s.procs p).child ≠ none) : ∃ s', s.exited k p = .ok s' ∧ Core s' ∧ Loops s s' ∧
      (∀ q, q ≠ p → s'.procs q = s.procs q) ∧ (∀ q, q ≠ p → q ∈ (s.services k).events → q ∈ (s'.services k).events) ∧
      ∀ w, (s.procs p).fiber = some w → (w, .exited) ∈ s'.posted := by
  have hq := h.queues hvalid
  obtain ⟨w, hpd, hfiber, hproc, hwait, hno, hnot, hone⟩ := hq.event k p hin
  obtain ⟨e, he⟩ := Option.ne_none_iff_exists'.mp hchild
  have hroom : (s.services k).nwaiters ≠ 0 := by
    rw [hq.room k]
    exact (List.length_pos_of_mem hin).ne'
  refine ⟨_, exited_eq hfiber hpd he hroom, ⟨fun q => ?_, ?_, fun _ => ?_, h.closed⟩,
    ⟨rfl, rfl, fun i hi => List.mem_append_left _ hi, fun j => ?_, fun j => ?_, fun j q hj => ?_⟩,
    fun q hne => Function.update_of_ne hne .., fun q hne hq => ?_, fun v hv => ?_⟩
  · by_cases hqp : q = p
    · subst hqp
      simp only [Function.update_self]
      exact (h.owned q).finish hpd hproc he
    · simp only [Function.update_of_ne hqp]
      refine ((h.owned q).event (e := .reaped p) ?_ nofun nofun).event nofun nofun fun v hv => ?_
      · exact fun heq => hqp (Event.reaped.inj heq).symm
      · rw [← (Event.ended.inj hv).1, hproc]
        exact Ne.symm hqp
  · have hbegun := ((h.diary.numbered hvalid).unresumed w hwait).1
    have hreaped := h.diary.event (e := .reaped p) nofun nofun nofun nofun
    refine hreaped.event nofun nofun (fun v o heq => ?_) nofun
    rw [← (Event.ended.inj heq).1]
    exact List.mem_cons_of_mem _ hbegun
  · refine hq.post hin hfiber rfl rfl (fun _ hi => hi) (fun j => ?_) ?_ (fun j hj => ?_)
      (fun q hne => Function.update_of_ne hne ..) (fun _ => ?_) (fun _ _ => ?_) (fun ⟨v, j⟩ hv hvp => ?_)
      ended_finished fun v _ hv => ?_
    · by_cases hj : j = k
      · rw [hj]
        simp only [Function.update_self]
      · simp only [Function.update_of_ne hj]
    · simp only [Function.update_self]
    · simp only [Function.update_of_ne hj]
    · simp only [Function.update_self]
    · simp only [Function.update_self]
      exact Option.some_ne_none e
    · simp only [Function.update_self]
      rw [← hvp]
      exact (hq.interrupters v j hv).2
    · simpa using hv
  · by_cases hj : j = k
    · rw [hj]
      simp only [Function.update_self]
    · simp only [Function.update_of_ne hj]
  · by_cases hj : j = k
    · rw [hj]
      simp only [Function.update_self, and_self]
    · simp only [Function.update_of_ne hj, and_self]
  · by_cases hjk : j = k
    · subst hjk
      simp only [Function.update_self] at hj
      exact List.mem_of_mem_erase hj
    · simp only [Function.update_of_ne hjk] at hj
      exact List.mem_of_mem_erase hj
  · simp only [Function.update_self]
    exact (List.mem_erase_of_ne hne).mpr hq
  · rw [hfiber] at hv
    rw [Option.some.inj hv]
    exact List.mem_append_right _ (List.mem_singleton_self _)

/-- The loop of `on_wait`. -/
theorem Core.loop {k : Nat} (ps : List Nat) (hnodup : ps.Nodup) : ∀ {s : State}, Core s → s.valid = true →
    (∀ q ∈ ps, q ∈ (s.services k).events ∧ (s.procs q).child ≠ none) →
    ∃ s', ps.foldlM (State.exited k) s = .ok s' ∧ Core s' ∧ Loops s s' ∧
      ∀ q ∈ ps, ∀ w, (s.procs q).fiber = some w → (w, .exited) ∈ s'.posted := by
  induction ps with
  | nil => exact fun h _ _ => ⟨_, rfl, h, .refl _, nofun⟩
  | cons p ps ih =>
      intro s h hvalid hps
      obtain ⟨hp, hnodup⟩ := List.nodup_cons.mp hnodup
      obtain ⟨hin, hchild⟩ := hps p (List.mem_cons_self ..)
      obtain ⟨s₁, hexec, hcore, hloops, hprocs, hevents, hposted⟩ := h.exited hvalid hin hchild
      have hrest : ∀ q ∈ ps, q ∈ (s₁.services k).events ∧ (s₁.procs q).child ≠ none := by
        intro q hq
        have hne : q ≠ p := fun heq => hp (heq ▸ hq)
        obtain ⟨hqin, hqchild⟩ := hps q (List.mem_cons_of_mem _ hq)
        rw [hprocs q hne]
        exact ⟨hevents q hne hqin, hqchild⟩
      obtain ⟨s', hfold, hcore', hloops', hposted'⟩ := ih hnodup hcore (hloops.valid.trans hvalid) hrest
      refine ⟨s', ?_, hcore', hloops.trans hloops', fun q hq w hw => ?_⟩
      · rw [List.foldlM_cons, hexec]
        exact hfold
      · rcases List.mem_cons.mp hq with rfl | hq
        · exact hloops'.posted _ (hposted w hw)
        · have hne : q ≠ p := fun heq => hp (heq ▸ hq)
          rw [← hprocs q hne] at hw
          exact hposted' q hq w hw

/-- The kqueue has room for every event. -/
theorem mem_kevent (hroom : (s.services p).nwaiters = (s.services p).events.length) (q : Nat) :
    q ∈ s.kevent p ↔ q ∈ (s.services p).events ∧ (s.procs q).child ≠ none := by
  unfold State.kevent
  rw [List.take_of_length_le (hroom ▸ List.length_filter_le ..), List.mem_filter, Option.isSome_iff_ne_none]

theorem setService_self (s : State) (k : Nat) (sv : Service) : (s.setService k sv).services k = sv :=
  Function.update_self ..

theorem setService_of_ne (s : State) {k j : Nat} (h : j ≠ k) (sv : Service) :
    (s.setService k sv).services j = s.services j :=
  Function.update_of_ne h ..

/-- The calls of `async_wait` of a service change. -/
theorem Core.setService (h : Core s) {k : Nat} {sv : Service} (hevents : sv.events = (s.services k).events)
    (hnwaiters : sv.nwaiters = (s.services k).nwaiters) : Core (s.setService k sv) := by
  refine ⟨h.owned, h.diary, fun hvalid => ?_, h.closed⟩
  have hq := h.queues hvalid
  refine hq.of_same rfl rfl (fun _ hi => hi) (fun j => ?_) (fun j => ?_) (fun _ => rfl) (fun _ _ _ => rfl)
    (fun _ hpd => hpd) hq.gone (fun _ _ => .rfl) fun k q _ w hw => hw.2.2.2.2.2.1
  · by_cases hj : j = k
    · rw [hj, setService_self, hevents]
    · rw [setService_of_ne s hj]
  · by_cases hj : j = k
    · rw [hj, setService_self, hnwaiters]
    · rw [setService_of_ne s hj]

theorem Served.of_le {sv sv' : Service} (h : Served sv) (hrunning : sv'.running = true → sv.running = true)
    (hevents : sv'.events ≠ [] → sv.events ≠ []) (hcalls : sv.armed + sv.queued ≤ sv'.armed + sv'.queued) :
    Served sv' := fun hsome =>
  Nat.lt_of_lt_of_le (h (hsome.imp hrunning hevents)) hcalls

/-- The service waits for its kqueue again while there are events. -/
theorem Core.rearm (h : Core s) (hvalid : s.valid = true) (k : Nat) (hserved : ∀ j, j ≠ k → Served (s.services j)) :
    Inv (s.rearm k) := by
  unfold State.rearm
  by_cases hroom : 0 < (s.services k).nwaiters
  · simp only [if_pos hroom]
    refine ⟨h.setService rfl rfl, fun _ j => ?_⟩
    by_cases hj : j = k
    · rw [hj, setService_self]
      intro _
      simp only
      omega
    · rw [setService_of_ne s hj]
      exact hserved j hj
  · simp only [if_neg hroom]
    refine ⟨h.setService rfl rfl, fun _ j => ?_⟩
    by_cases hj : j = k
    · rw [hj, setService_self]
      have hempty : (s.services k).events = [] := by
        have hlen := (h.queues hvalid).room k
        exact List.eq_nil_of_length_eq_zero (by omega)
      intro hsome
      rcases hsome with hrunning | hevents
      · cases hrunning
      · exact absurd hempty hevents
    · rw [setService_of_ne s hj]
      exact hserved j hj

/-- The handler of a service posts the fibers of the children that have ended. -/
theorem Inv.onWait (h : Inv s) (hvalid : s.valid = true) (k : Nat) :
    ∃ s', (s.setService k { s.services k with queued := (s.services k).queued - 1 }).onWait k = .ok s' ∧ Inv s' ∧
      s'.valid = true ∧ s'.waiters = s.waiters ∧ ∀ q ∈ (s.services k).events, (s.procs q).child ≠ none →
        ∀ w, (s.procs q).fiber = some w → (w, .exited) ∈ s'.posted := by
  let s₀ := s.setService k { s.services k with queued := (s.services k).queued - 1 }
  have hself : s₀.services k = { s.services k with queued := (s.services k).queued - 1 } := setService_self ..
  have hcore : Core s₀ := h.toCore.setService rfl rfl
  have hroom := (hcore.queues hvalid).room k
  have hmem := mem_kevent hroom
  have hnodup : (s₀.kevent k).Nodup := by
    unfold State.kevent
    exact (((hcore.queues hvalid).nodup k).filter _).sublist (List.take_sublist ..)
  obtain ⟨s₁, hfold, hcore₁, hloops, hposted⟩ :=
    hcore.loop (k := k) (s₀.kevent k) hnodup hvalid fun q hq => (hmem q).mp hq
  have hvalid₁ : s₁.valid = true := hloops.valid.trans hvalid
  refine ⟨s₁.rearm k, ?_, hcore₁.rearm hvalid₁ k fun j hj => ?_, hvalid₁, hloops.waiters, fun q hq hchild w hw => ?_⟩
  · change s₀.onWait k = _
    unfold State.onWait
    rw [if_neg (by simp [s₀, State.setService, hvalid]), hfold]
    rfl
  · have hsame : s₀.services j = s.services j := setService_of_ne s hj _
    have hserved := h.served hvalid j
    rw [← hsame] at hserved
    refine hserved.of_le (fun hr => (hloops.running j).symm.trans hr) (fun hne hempty => hne ?_) ?_
    · refine List.eq_nil_iff_forall_not_mem.mpr fun q hq => ?_
      have hqin := hloops.events j q hq
      rw [hempty] at hqin
      cases hqin
    · rw [(hloops.calls j).1, (hloops.calls j).2]
  · refine hposted q ((hmem q).mpr ⟨?_, hchild⟩) w hw
    rw [hself]
    exact hq

theorem setProc_self (s : State) (p : Nat) (pr : Proc) : (s.setProc p pr).procs p = pr :=
  Function.update_self ..

theorem setProc_of_ne (s : State) {p q : Nat} (h : q ≠ p) (pr : Proc) : (s.setProc p pr).procs q = s.procs q :=
  Function.update_of_ne h ..

/-- An event that only says something. -/
theorem Inv.event (h : Inv s) {e : Event} (hbegun : ∀ w, e ≠ .begun w) (hresumed : ∀ w o, e ≠ .resumed w o)
    (hended : ∀ w o, e ≠ .ended w o) (hreaped : ∀ q, e ≠ .reaped q)
    (hsignalled : ∀ q, e = .signalled q → (s.procs q).pdfd = true)
    (hasked : ∀ w, e = .asked w → .begun w ∈ s.log ∧ ∀ k, ∀ q ∈ (s.services k).events, ¬ Pending s k q w) :
    Inv { s with log := e :: s.log } where
  owned q := (h.owned q).event (hreaped q) (hsignalled q) fun w heq => absurd heq (hended w _)
  diary := h.diary.event hbegun hresumed (fun w o heq => absurd heq (hended w o)) fun w heq => (hasked w heq).1
  queues hvalid := by
    have hq := h.queues hvalid
    refine hq.of_same rfl rfl (fun _ hi => hi) (fun _ => rfl) (fun _ => rfl) (fun _ => rfl) (fun _ _ _ => rfl)
      (fun _ hpd => hpd) hq.gone (ended_cons hended) fun k q hin w hw hask => ?_
    rcases List.mem_cons.mp hask with heq | hask
    · exact (hasked w heq.symm).2 k q hin hw
    · exact hw.2.2.2.2.2.1 hask
  closed := h.closed
  served := h.served

theorem Inv.exit (h : Inv s) (p : Nat) (e : Exit) (hchild : (s.procs p).child = none) :
    Inv (s.setProc p { s.procs p with child := some e }) := by
  have hsame : ∀ q, ∃ c, (s.setProc p { s.procs p with child := some e }).procs q = { s.procs q with child := c } := by
    intro q
    by_cases hq : q = p
    · subst hq
      exact ⟨some e, setProc_self ..⟩
    · exact ⟨(s.procs q).child, setProc_of_ne s hq _⟩
  refine ⟨⟨fun q => ?_, h.diary, fun hvalid => ?_, h.closed⟩, h.served⟩
  · by_cases hq : q = p
    · subst hq
      rw [setProc_self]
      exact (h.owned q).exit hchild e
    · rw [setProc_of_ne s hq]
      exact h.owned q
  · have hq := h.queues hvalid
    refine hq.of_same rfl rfl (fun _ hi => hi) (fun _ => rfl) (fun _ => rfl) (fun q => ?_) (fun _ q _ => ?_)
      (fun q => ?_) (fun q => ?_) (fun _ _ => .rfl) fun k q _ w hw => hw.2.2.2.2.2.1
    all_goals
      obtain ⟨c, hc⟩ := hsame q
      rw [hc]
    · exact id
    · exact hq.gone q

theorem Inv.ready (h : Inv s) {k : Nat} (harmed : 0 < (s.services k).armed) :
    Inv (s.setService k { s.services k with
      armed := (s.services k).armed - 1
      queued := (s.services k).queued + 1 }) := by
  refine ⟨h.toCore.setService rfl rfl, fun hvalid j => ?_⟩
  by_cases hj : j = k
  · rw [hj, setService_self]
    exact (h.served hvalid k).of_le id id (by simp only; omega)
  · rw [setService_of_ne s hj]
    exact h.served hvalid j

/-- The interrupter takes the event out of the kqueue. -/
theorem Inv.interrupt (h : Inv s) {w : Wait} {k : Nat} (hi : (w, k) ∈ s.interrupters) :
    ∃ s', s.interrupt w k = .ok s' ∧ Inv s' := by
  have hvalid : s.valid = true := by
    by_contra hclosed
    rw [h.closed (by simpa using hclosed)] at hi
    cases hi
  have hq := h.queues hvalid
  obtain ⟨hwait, hfiber⟩ := hq.interrupters w k hi
  have hbegun := ((h.diary.numbered hvalid).unresumed w hwait).1
  have hasked : ∀ v, Event.asked w = .asked v → .begun v ∈ s.log := fun v heq => Event.asked.inj heq ▸ hbegun
  unfold State.interrupt
  by_cases hevent : (s.procs w.proc).pdfd = true ∧ w.proc ∈ (s.services k).events
  · rw [if_pos hevent]
    have hroom : (s.services k).nwaiters ≠ 0 := by
      rw [hq.room k]
      exact (List.length_pos_of_mem hevent.2).ne'
    have hended : ∀ w' o', .ended w' o' ∈ Event.ended w .interrupted :: .asked w :: s.log ↔
        (w' = w ∧ o' = .interrupted) ∨ .ended w' o' ∈ s.log := by
      intro w' o'
      simp
    simp only [hfiber, if_neg hroom]
    refine ⟨_, rfl, ⟨fun q => ?_, ?_, fun _ => ?_, fun hclosed => ?_⟩, fun _ j => ?_⟩
    · have hother : Owned q (s.procs q) (.ended w .interrupted :: .asked w :: s.log) :=
        ((h.owned q).event (e := .asked w) nofun nofun nofun).event nofun nofun nofun
      by_cases hqp : q = w.proc
      · subst hqp
        simp only [State.setProc, Function.update_self]
        exact ⟨hother.licence, hother.signals, hother.unended, hother.code⟩
      · simp only [State.setProc, Function.update_of_ne hqp]
        exact hother
    · refine (h.diary.event (e := .asked w) nofun nofun nofun hasked).event nofun nofun (fun v o heq => ?_) nofun
      rw [← (Event.ended.inj heq).1]
      exact List.mem_cons_of_mem _ hbegun
    · refine hq.post hevent.2 hfiber rfl rfl (fun i hi => List.mem_of_mem_filter hi) (fun j => ?_) ?_ (fun j hj => ?_)
        (fun q hne => Function.update_of_ne hne ..) (fun hsome => ?_) (fun halive hclosed => ?_) (fun ⟨v, j⟩ hv hvp => ?_)
        hended fun v hne hask => ?_
      · by_cases hj : j = k
        · subst hj
          simp only [State.setProc, setService_self]
        · simp only [State.setProc, setService_of_ne _ hj]
          exact (List.erase_of_not_mem fun hin => hj (hq.single j k _ hin hevent.2)).symm
      · simp only [State.setProc, setService_self]
      · simp only [State.setProc, setService_of_ne _ hj]
      · simp only [State.setProc, Function.update_self] at hsome
        cases hsome
      · simp only [State.setProc, Function.update_self] at hclosed
        rw [hevent.1] at hclosed
        cases hclosed
      · obtain ⟨hv, hne⟩ := List.mem_filter.mp hv
        obtain ⟨-, hvfiber⟩ := hq.interrupters v j hv
        rw [hvp, hfiber] at hvfiber
        rw [Option.some.inj hvfiber] at hne
        exact absurd hne (by simp)
      · rcases List.mem_cons.mp hask with heq | hask
        · cases heq
        · rcases List.mem_cons.mp hask with heq | hask
          · exact absurd (Event.asked.inj heq) hne
          · exact hask
    · exact absurd (hvalid.symm.trans hclosed) nofun
    · have hserved := h.served hvalid j
      by_cases hj : j = k
      · subst hj
        simp only [State.setProc, setService_self]
        exact hserved.of_le id (fun hne hempty => hne (by rw [hempty]; rfl)) (Nat.le_refl _)
      · simp only [State.setProc, setService_of_ne _ hj]
        exact hserved
  · rw [if_neg hevent]
    have hclosed : (s.procs w.proc).pdfd ≠ true := by
      intro hpd
      obtain ⟨j, hj⟩ := hq.busy w.proc (by rw [hfiber]; rfl) hpd
      obtain ⟨v, -, hv, -, -, -, -, hone⟩ := hq.event j _ hj
      obtain rfl := Option.some.inj (hv.symm.trans hfiber)
      rw [← hone k hi] at hj
      exact hevent ⟨hpd, hj⟩
    have hlogged := h.event (e := .asked w) nofun nofun nofun nofun nofun fun v heq => by
      obtain rfl := Event.asked.inj heq
      refine ⟨hbegun, fun j q _ hpending => hclosed ?_⟩
      rw [hpending.2.2.1]
      exact hpending.1
    refine ⟨_, rfl, ⟨hlogged.owned, hlogged.diary, fun _ => ?_, fun hs => ?_⟩, hlogged.served⟩
    · have hlq := hlogged.queues hvalid
      exact hlq.of_same rfl rfl (fun i hi => List.mem_of_mem_filter hi) (fun _ => rfl) (fun _ => rfl) (fun _ => rfl)
        (fun _ _ _ => rfl) (fun _ hpd => hpd) hlq.gone (fun _ _ => .rfl) fun _ _ _ _ hw => hw.2.2.2.2.2.1
    · exact absurd (hvalid.symm.trans hs) nofun

/-- The exit of a child that nobody waits for is registered. -/
theorem Queues.add (h : Queues s) {k : Nat} {w : Wait} (hproc : w.proc = p) (hpd : (s.procs p).pdfd = true)
    (hidle : (s.procs p).fiber = none) (hwaiters : s'.waiters = w :: s.waiters) (hposted : s'.posted = s.posted)
    (hinterrupters : ∀ i ∈ s'.interrupters, i = (w, k) ∨ i ∈ s.interrupters)
    (hevents : (s'.services k).events = p :: (s.services k).events)
    (hnwaiters : (s'.services k).nwaiters = (s.services k).nwaiters + 1)
    (hothers : ∀ j, j ≠ k → s'.services j = s.services j) (hself : s'.procs p = { s.procs p with fiber := some w })
    (hprocs : ∀ q, q ≠ p → s'.procs q = s.procs q) (hnew : w ∉ s.waiters)
    (hended : ∀ v o, .ended v o ∈ s'.log ↔ .ended v o ∈ s.log) (hasked : ∀ v, .asked v ∈ s'.log ↔ .asked v ∈ s.log)
    (hunended : ∀ o, .ended w o ∉ s.log) (hunasked : .asked w ∉ s.log) : Queues s' := by
  have hnot : ∀ j, p ∉ (s.services j).events := by
    intro j hin
    obtain ⟨v, -, hv, -⟩ := h.event j p hin
    rw [hidle] at hv
    cases hv
  have hmem : ∀ j q, q ∈ (s'.services j).events ↔ (j = k ∧ q = p) ∨ q ∈ (s.services j).events := by
    intro j q
    by_cases hj : j = k
    · rw [hj, hevents, List.mem_cons]
      simp
    · rw [hothers j hj]
      simp [hj]
  have hsame : ∀ q v, (s.procs q).fiber = some v → s'.procs q = s.procs q := by
    intro q v hv
    refine hprocs q fun heq => ?_
    rw [heq, hidle] at hv
    cases hv
  refine ⟨fun v hv => ?_, fun j q hq => ?_, fun j i q hj hi => ?_, fun j => ?_, fun j => ?_, fun q hq hqpd => ?_,
    fun v r hv => ?_, ?_, fun v j hv => ?_, fun q halive hqpd => ?_⟩
  · rw [hwaiters] at hv
    rcases List.mem_cons.mp hv with rfl | hv
    · refine .inr ⟨k, (hmem k _).mpr (.inl ⟨rfl, hproc⟩), ?_⟩
      rw [hproc, hself]
    · rcases h.placed v hv with ⟨r, hr⟩ | ⟨j, hj, hvf⟩
      · exact .inl ⟨r, hposted ▸ hr⟩
      · refine .inr ⟨j, (hmem j _).mpr (.inr hj), ?_⟩
        rw [hsame _ v hvf]
        exact hvf
  · rcases (hmem j q).mp hq with ⟨rfl, rfl⟩ | hq
    · refine ⟨w, ?_, ?_, hproc, ?_, fun o ho => hunended o ((hended w o).mp ho), fun ha => hunasked ((hasked w).mp ha),
        fun i hi => ?_⟩
      · rw [hself]
        exact hpd
      · rw [hself]
      · rw [hwaiters]
        exact List.mem_cons_self ..
      · rcases hinterrupters _ hi with heq | hi
        · exact (Prod.mk.inj heq).2
        · exact absurd (h.interrupters w i hi).1 hnew
    · obtain ⟨v, hvpd, hv, hvproc, hvwait, hvno, hvnot, hvone⟩ := h.event j q hq
      refine ⟨v, ?_, ?_, hvproc, ?_, fun r hr => hvno r ((hended v r).mp hr), fun ha => hvnot ((hasked v).mp ha),
        fun i hi => ?_⟩
      · rw [hsame q v hv]
        exact hvpd
      · rw [hsame q v hv]
        exact hv
      · rw [hwaiters]
        exact List.mem_cons_of_mem _ hvwait
      · rcases hinterrupters _ hi with heq | hi
        · rw [(Prod.mk.inj heq).1] at hvwait
          exact absurd hvwait hnew
        · exact hvone i hi
  · rcases (hmem j q).mp hj with ⟨rfl, rfl⟩ | hj
    · rcases (hmem i q).mp hi with ⟨rfl, -⟩ | hi
      · rfl
      · exact absurd hi (hnot i)
    · rcases (hmem i q).mp hi with ⟨rfl, rfl⟩ | hi
      · exact absurd hj (hnot j)
      · exact h.single j i q hj hi
  · by_cases hj : j = k
    · rw [hj, hevents, hnwaiters, h.room, List.length_cons]
    · rw [hothers j hj]
      exact h.room j
  · by_cases hj : j = k
    · rw [hj, hevents]
      exact List.nodup_cons.mpr ⟨hnot k, h.nodup k⟩
    · rw [hothers j hj]
      exact h.nodup j
  · by_cases hqp : q = p
    · exact ⟨k, (hmem k q).mpr (.inl ⟨rfl, hqp⟩)⟩
    · rw [hprocs q hqp] at hq hqpd
      obtain ⟨j, hj⟩ := h.busy q hq hqpd
      exact ⟨j, (hmem j q).mpr (.inr hj)⟩
  · obtain ⟨hvw, r', hr'⟩ := h.posted v r (hposted ▸ hv)
    rw [hwaiters]
    exact ⟨List.mem_cons_of_mem _ hvw, r', (hended v r').mpr hr'⟩
  · rw [hposted]
    exact h.distinct
  · rw [hwaiters]
    rcases hinterrupters _ hv with heq | hv
    · rw [(Prod.mk.inj heq).1, hproc, hself]
      exact ⟨List.mem_cons_self .., rfl⟩
    · obtain ⟨hvw, hvf⟩ := h.interrupters v j hv
      rw [hsame _ v hvf]
      exact ⟨List.mem_cons_of_mem _ hvw, hvf⟩
  · by_cases hq : q = p
    · subst hq
      rw [hself, hpd] at hqpd
      cases hqpd
    · rw [hprocs q hq] at halive hqpd ⊢
      exact h.gone q halive hqpd

/-- A fiber begins to wait. -/
theorem Inv.wait (h : Inv s) {f : Fiber} {interruptible reuse : Bool} (hvalid : s.valid = true)
    (hexec : s.subprocessWait p f interruptible reuse = .ok s') : Inv s' := by
  unfold State.subprocessWait at hexec
  simp only at hexec
  split at hexec
  · cases hexec
  rename_i hpd
  split at hexec
  · cases hexec
  rename_i hidle
  split at hexec
  · cases hexec
  have hpd : (s.procs p).pdfd = true := by simpa using hpd
  have hidle : (s.procs p).fiber = none := by simpa using hidle
  generalize (if reuse then s.created - 1 else s.created) = k at hexec
  cases hexec
  have hnumbered := h.diary.numbered hvalid
  have hnew : .begun ⟨s.next, p, f⟩ ∉ s.log := fun hin => Nat.lt_irrefl _ (hnumbered.fresh _ hin)
  refine ⟨⟨fun q => ?_, h.diary.begin hvalid p f, fun _ => ?_, fun hclosed => ?_⟩, fun _ j => ?_⟩
  · have hother : Owned q (s.procs q) (.begun ⟨s.next, p, f⟩ :: s.log) := (h.owned q).event nofun nofun nofun
    by_cases hqp : q = p
    · subst hqp
      simp only [State.setProc, Function.update_self]
      exact ⟨hother.licence, hother.signals, hother.unended, hother.code⟩
    · simp only [State.setProc, Function.update_of_ne hqp]
      exact hother
  · refine (h.queues hvalid).add rfl hpd hidle rfl rfl (fun i hi => ?_) ?_ ?_ (fun j hj => setService_of_ne s hj _)
      (setProc_self _ p _) (fun q hq => setProc_of_ne _ hq _) (fun hin => hnew (hnumbered.unresumed _ hin).1)
      (ended_cons nofun) (fun v => ?_) (fun o ho => hnew (h.diary.ended _ o ho)) fun ha => hnew (h.diary.asked _ ha)
    · simp only at hi
      split at hi
      · exact List.mem_cons.mp hi
      · exact .inr hi
    · simp only [State.setProc, setService_self]
    · simp only [State.setProc, setService_self]
    · rw [List.mem_cons]
      exact or_iff_right nofun
  · exact absurd (hvalid.symm.trans hclosed) nofun
  · by_cases hj : j = k
    · subst hj
      simp only [State.setProc, setService_self]
      intro _
      cases hrunning : (s.services j).running with
      | true =>
          rw [if_pos rfl]
          exact h.served hvalid j (.inl hrunning)
      | false =>
          change 0 < (s.services j).armed + 1 + (s.services j).queued
          omega
    · simp only [State.setProc, setService_of_ne _ hj]
      exact h.served hvalid j

/-- The fiber is resumed, and its interrupter cleared. -/
theorem Queues.resume (h : Queues s) (hnodup : s.waiters.Nodup) {w : Wait} {o : Outcome} (hin : (w, o) ∈ s.posted) :
    Queues { s with
      posted := s.posted.erase (w, o)
      waiters := s.waiters.erase w
      interrupters := s.interrupters.filter fun i => i.1 ≠ w
      log := .resumed w o :: s.log } := by
  have hmem : ∀ v, v ∈ s.waiters.erase w ↔ v ≠ w ∧ v ∈ s.waiters := fun v => hnodup.mem_erase_iff
  have hended : ∀ v r, .ended v r ∈ Event.resumed w o :: s.log ↔ .ended v r ∈ s.log := ended_cons nofun
  have hlater : ∀ v r, (v, r) ∈ s.posted.erase (w, o) → v ≠ w ∧ (v, r) ∈ s.posted := by
    intro v r hv
    obtain ⟨hne, hv⟩ := h.distinct.of_map.mem_erase_iff.mp hv
    refine ⟨fun heq => hne ?_, hv⟩
    exact List.inj_on_of_nodup_map h.distinct hv hin heq
  refine ⟨fun v hv => ?_, fun k q hk => ?_, h.single, h.room, h.nodup, h.busy, fun v r hv => ?_, ?_, fun v k hv => ?_,
    h.gone⟩
  · obtain ⟨hne, hv⟩ := (hmem v).mp hv
    rcases h.placed v hv with ⟨r, hr⟩ | hplace
    · exact .inl ⟨r, (List.mem_erase_of_ne fun heq => hne (Prod.mk.inj heq).1).mpr hr⟩
    · exact .inr hplace
  · obtain ⟨v, hpd, hv, hproc, hwait, hno, hnot, hone⟩ := h.event k q hk
    refine ⟨v, hpd, hv, hproc, (hmem v).mpr ⟨?_, hwait⟩, fun r hr => hno r ((hended v r).mp hr), fun ha => ?_,
      fun j hj => hone j (List.mem_of_mem_filter hj)⟩
    · rintro rfl
      obtain ⟨-, r, hr⟩ := h.posted v o hin
      exact hno r hr
    · rcases List.mem_cons.mp ha with heq | ha
      · cases heq
      · exact hnot ha
  · obtain ⟨hne, hv⟩ := hlater v r hv
    obtain ⟨hwait, r', hr'⟩ := h.posted v r hv
    exact ⟨(hmem v).mpr ⟨hne, hwait⟩, r', (hended v r').mpr hr'⟩
  · exact h.distinct.sublist (List.erase_sublist.map _)
  · obtain ⟨hv, hne⟩ := List.mem_filter.mp hv
    obtain ⟨hwait, hfiber⟩ := h.interrupters v k hv
    exact ⟨(hmem v).mpr ⟨by simpa using hne, hwait⟩, hfiber⟩

theorem Inv.resume (h : Inv s) {w : Wait} {o : Outcome} (hin : (w, o) ∈ s.posted) :
    ∃ s', ({ s with posted := s.posted.erase (w, o) } : State).resume w o = .ok s' ∧ Inv s' ∧
      (s.valid = true → w ∈ resumed s'.log) := by
  unfold State.resume
  by_cases hclosed : s.valid = false
  · rw [if_pos hclosed]
    refine ⟨_, rfl, ⟨⟨h.owned, h.diary, fun hvalid => ?_, h.closed⟩, h.served⟩, fun hvalid => ?_⟩
    all_goals
      rw [hclosed] at hvalid
      cases hvalid
  · have hvalid : s.valid = true := by simpa using hclosed
    have hq := h.queues hvalid
    have hwait := (hq.posted w o hin).1
    rw [if_neg hclosed, if_pos hwait]
    refine ⟨_, rfl, ⟨⟨fun q => ?_, h.diary.resume hvalid hwait o, fun _ => hq.resume h.diary.nodup hin, fun hs => ?_⟩,
      h.served⟩, fun _ => List.mem_cons_self ..⟩
    · exact (h.owned q).event nofun nofun nofun
    · exact absurd hs hclosed

theorem closePdfd_closed (h : (s.procs p).pdfd = false) : s.closePdfd p = s := by
  unfold State.closePdfd
  simp [h]

theorem closePdfd_open (h : (s.procs p).pdfd = true) : s.closePdfd p =
    { s.setProc p { s.procs p with pdfd := false } with
      services := fun k => { s.services k with events := (s.services k).events.erase p }
      log := .reaped p ::
        if (s.procs p).daemon ∨ (s.procs p).child.isSome then s.log else .signalled p :: s.log } := by
  unfold State.closePdfd
  simp only [h, if_true]
  rfl

/-- What `close` does to the log. -/
theorem Inv.closed_log (h : Inv s) (hpd : (s.procs p).pdfd = true) {log : List Event}
    (hlog : log = .reaped p :: if (s.procs p).daemon ∨ (s.procs p).child.isSome then s.log else .signalled p :: s.log) :
    Diary s.valid s.waiters s.next log ∧ (∀ w o, .ended w o ∈ log ↔ .ended w o ∈ s.log) ∧
      (∀ w, .asked w ∈ log ↔ .asked w ∈ s.log) ∧ Owned p { s.procs p with pdfd := false } log ∧
      ∀ q, q ≠ p → Owned q (s.procs q) log := by
  subst hlog
  split
  · refine ⟨h.diary.event nofun nofun nofun nofun, ended_cons nofun, fun w => ?_, (h.owned p).close hpd,
      fun q hq => (h.owned q).event (fun heq => hq (Event.reaped.inj heq).symm) nofun nofun⟩
    simp
  · have hkilled : ∀ q, Owned q (s.procs q) (.signalled p :: s.log) := by
      refine fun q => (h.owned q).event nofun (fun heq => ?_) nofun
      rw [← Event.signalled.inj heq]
      exact hpd
    refine ⟨(h.diary.event (e := .signalled p) nofun nofun nofun nofun).event nofun nofun nofun nofun, fun w o => ?_,
      fun w => ?_, (hkilled p).close hpd,
      fun q hq => (hkilled q).event (fun heq => hq (Event.reaped.inj heq).symm) nofun nofun⟩
    · simp
    · simp

/-- A handle that no fiber waits for is collected. -/
theorem Inv.collect (h : Inv s) (hfree : s.valid = true → ∀ w ∈ s.waiters, w.proc ≠ p) :
    Inv ((s.closePdfd p).setProc p { (s.closePdfd p).procs p with alive := false }) := by
  have hfresh : s.valid = true → ∀ k, p ∉ (s.services k).events := by
    intro hvalid k hin
    obtain ⟨w, -, -, hproc, hwait, -⟩ := (h.queues hvalid).event k p hin
    exact hfree hvalid w hwait hproc
  cases hpd : (s.procs p).pdfd with
  | false =>
      rw [closePdfd_closed hpd]
      refine ⟨⟨fun q => ?_, h.diary, fun hvalid => ?_, h.closed⟩, h.served⟩
      · by_cases hq : q = p
        · subst hq
          rw [setProc_self]
          exact ⟨(h.owned q).licence, (h.owned q).signals, (h.owned q).unended, (h.owned q).code⟩
        · rw [setProc_of_ne s hq]
          exact h.owned q
      · have hsame : ∀ q, ∃ b, (s.setProc p { s.procs p with alive := false }).procs q = { s.procs q with alive := b } ∧
            (b = true → (s.procs q).alive = true) := by
          intro q
          by_cases hq : q = p
          · subst hq
            exact ⟨false, setProc_self .., nofun⟩
          · exact ⟨(s.procs q).alive, setProc_of_ne s hq _, id⟩
        have hq := h.queues hvalid
        refine hq.of_same rfl rfl (fun _ hi => hi) (fun _ => rfl) (fun _ => rfl) (fun q => ?_) (fun _ q _ => ?_)
          (fun q => ?_) (fun q => ?_) (fun _ _ => .rfl) fun k q _ w hw => hw.2.2.2.2.2.1
        all_goals
          obtain ⟨b, hb, halive⟩ := hsame q
          rw [hb]
        · exact id
        · exact fun hb => hq.gone q (halive hb)
  | true =>
      obtain ⟨hdiary, hended, hasked, hself, hothers⟩ := h.closed_log hpd rfl
      rw [closePdfd_open hpd]
      refine ⟨⟨fun q => ?_, hdiary, fun hvalid => ?_, h.closed⟩, fun hvalid j => ?_⟩
      · by_cases hq : q = p
        · subst hq
          simp only [State.setProc, Function.update_self]
          exact ⟨hself.licence, hself.signals, hself.unended, hself.code⟩
        · simp only [State.setProc, Function.update_of_ne hq]
          exact hothers q hq
      · have hq := h.queues hvalid
        refine hq.of_same rfl rfl (fun _ hi => hi) (fun k => List.erase_of_not_mem (hfresh hvalid k)) (fun _ => rfl)
          (fun q => ?_) (fun k q hin => ?_) (fun q hqpd => ?_) (fun q halive hqpd => ?_) hended
          fun k q _ w hw ha => hw.2.2.2.2.2.1 ((hasked w).mp ha)
        · by_cases hqp : q = p
          · subst hqp
            simp only [State.setProc, Function.update_self]
          · simp only [State.setProc, Function.update_of_ne hqp]
        · have hqp : q ≠ p := fun heq => hfresh hvalid k (heq ▸ hin)
          simp only [State.setProc, Function.update_of_ne hqp]
        · by_cases hqp : q = p
          · subst hqp
            exact hpd
          · simpa only [State.setProc, Function.update_of_ne hqp] using hqpd
        · by_cases hqp : q = p
          · subst hqp
            simp only [State.setProc, Function.update_self] at halive
            cases halive
          · simp only [State.setProc, Function.update_of_ne hqp] at halive hqpd ⊢
            exact hq.gone q halive hqpd
      · exact (h.served hvalid j).of_le id
          (fun hne hempty => hne (by simp only [State.setProc, hempty]; rfl)) (Nat.le_refl _)

theorem Inv.close (h : Inv s) : Inv { s with valid := false, waiters := [], interrupters := [] } where
  owned := h.owned
  diary := ⟨nofun, h.diary.once, List.nodup_nil, h.diary.ended, h.diary.asked⟩
  queues := nofun
  closed _ := rfl
  served := nofun

theorem Inv.late (h : Inv s) (hclosed : s.valid = false) (k : Nat) (sv : Service) : Inv (s.setService k sv) where
  owned := h.owned
  diary := h.diary
  queues hvalid := absurd (hclosed.symm.trans hvalid) nofun
  closed := h.closed
  served hvalid := absurd (hclosed.symm.trans hvalid) nofun

theorem subprocessWait_defined (s : State) (p : Nat) (f : Fiber) (interruptible reuse : Bool) :
    s.subprocessWait p f interruptible reuse ≠ .error .undefined := by
  simp only [State.subprocessWait]
  repeat' split
  all_goals exact nofun

/-- A step keeps the invariant and is defined. -/
theorem Inv.exec (h : Inv s) (a : Action) : exec s a ≠ .error .undefined ∧ ∀ s', exec s a = .ok s' → Inv s' := by
  have hok : ∀ {x : Except Refusal State} {s₁}, x = .ok s₁ → Inv s₁ → x ≠ .error .undefined ∧ ∀ s', x = .ok s' → Inv s' := by
    rintro x s₁ rfl hinv
    refine ⟨nofun, fun s' heq => ?_⟩
    rw [← Except.ok.inj heq]
    exact hinv
  cases a with
  | wait p f interruptible reuse =>
      simp only [FreeBSD.exec]
      split
      · rename_i hguard
        exact ⟨subprocessWait_defined s p f interruptible reuse, fun s' hexec => h.wait hguard.1 hexec⟩
      · exact ⟨nofun, nofun⟩
  | interrupt f =>
      simp only [FreeBSD.exec]
      split
      · rename_i w k hfind
        obtain ⟨s₁, hexec, hinv⟩ := h.interrupt (List.mem_of_find?_eq_some hfind)
        exact hok hexec hinv
      · exact ⟨nofun, nofun⟩
  | kill p =>
      simp only [FreeBSD.exec, State.subprocessKill]
      split
      · split
        · exact ⟨nofun, nofun⟩
        · rename_i hpd
          refine hok rfl (h.event nofun nofun nofun nofun (fun q heq => ?_) nofun)
          rw [← Event.signalled.inj heq]
          simpa using hpd
      · exact ⟨nofun, nofun⟩
  | exit p e =>
      simp only [FreeBSD.exec]
      split
      · rename_i hchild
        exact hok rfl (h.exit p e hchild)
      · exact ⟨nofun, nofun⟩
  | ready k =>
      simp only [FreeBSD.exec]
      split
      · rename_i hguard
        exact hok rfl (h.ready hguard.1)
      · exact ⟨nofun, nofun⟩
  | onWait k =>
      simp only [FreeBSD.exec]
      split
      · cases hvalid : s.valid with
        | true =>
            obtain ⟨s₁, hexec, hinv, -⟩ := h.onWait hvalid k
            exact hok hexec hinv
        | false =>
            unfold State.onWait
            rw [if_pos (by exact hvalid)]
            exact hok rfl (h.late hvalid k _)
      · exact ⟨nofun, nofun⟩
  | resume w o =>
      simp only [FreeBSD.exec]
      split
      · rename_i hin
        obtain ⟨s₁, hexec, hinv, -⟩ := h.resume hin
        exact hok hexec hinv
      · exact ⟨nofun, nofun⟩
  | collect p =>
      simp only [FreeBSD.exec]
      split
      · rename_i hguard
        exact hok rfl (h.collect hguard.2)
      · exact ⟨nofun, nofun⟩
  | close =>
      simp only [FreeBSD.exec]
      split
      · exact hok rfl h.close
      · exact ⟨nofun, nofun⟩

theorem Inv.start (daemon : Nat → Bool) : Inv (.start daemon) where
  owned q :=
    { licence := Nat.le_refl _
      signals := signals_nil q
      unended := fun _ => ⟨rfl, nofun⟩
      code := nofun }
  diary := ⟨fun _ => ⟨nofun, nofun, nofun, List.nodup_nil, nofun⟩, List.nodup_nil, List.nodup_nil, nofun, nofun⟩
  queues _ :=
    { placed := nofun
      event := nofun
      single := nofun
      room := fun _ => rfl
      nodup := fun _ => List.nodup_nil
      busy := fun _ hsome => by cases hsome
      posted := nofun
      distinct := List.nodup_nil
      interrupters := nofun
      gone := fun _ _ hpd => by cases hpd }
  closed := nofun
  served _ k hsome := by
    rcases hsome with hrunning | hevents
    · cases hrunning
    · exact absurd rfl hevents

theorem reachable_inv (h : Reachable machine.initial machine.Step s) : Inv s := by
  refine h.invariant ?_ fun s a s' hs hstep => (hs.exec a).2 s' hstep
  rintro s ⟨daemon, rfl⟩
  exact .start daemon

theorem Inv.lawful (h : Inv s) (p : Nat) : Lawful p (machine.view s p) where
  once := h.diary.once
  kept hvalid w hw := (h.diary.numbered hvalid).exclusive w hw
  waitable hvalid halive hno := by
    have hq := h.queues hvalid
    have hpd : (s.procs p).pdfd = true := by
      by_contra hnot
      obtain ⟨e, he⟩ := Option.ne_none_iff_exists'.mp (hq.gone p halive (by simpa using hnot))
      obtain ⟨w, hproc, hended, -⟩ := (h.owned p).code e he
      exact hno w hproc hended
    refine ⟨hpd, ?_, fun hbusy => ?_⟩
    · simp only [machine]
      rw [((h.owned p).unended hpd).1]
      rfl
    · obtain ⟨k, hk⟩ := hq.busy p hbusy hpd
      obtain ⟨w, -, -, hproc, hwait, hunended, -⟩ := hq.event k p hk
      exact ⟨w, hwait, hproc, hunended⟩
  code c hc := by
    obtain ⟨e, he, rfl⟩ := Option.map_eq_some_iff.mp hc
    obtain ⟨w, hproc, hended, hchild⟩ := (h.owned p).code e he
    exact ⟨w, e, hproc, hended, hchild, rfl⟩
  reaped := Nat.le_trans (Nat.le_add_left ..) (h.owned p).licence
  signals := (h.owned p).signals

/-- A call of `fiber_resume` that is posted is made. -/
theorem Inv.resumes_posted (h : Inv s) (hvalid : s.valid = true) {w : Wait} {o : Outcome} (hin : (w, o) ∈ s.posted) :
    ∃ s', machine.Runs s s' ∧ w ∈ resumed s'.log := by
  obtain ⟨s', hexec, -, hresumed⟩ := h.resume hin
  refine ⟨s', ⟨Action.resume w o, rfl, ?_⟩, hresumed hvalid⟩
  change FreeBSD.exec s (.resume w o) = .ok s'
  simp only [FreeBSD.exec]
  rw [if_pos hin]
  exact hexec

/-- The handler of the service, once it is in the strand. -/
theorem Inv.resumes_queued (h : Inv s) (hvalid : s.valid = true) {k : Nat} {w : Wait}
    (hqueued : 0 < (s.services k).queued) (hin : w.proc ∈ (s.services k).events)
    (hfiber : (s.procs w.proc).fiber = some w) (hchild : (s.procs w.proc).child ≠ none) :
    ∃ s', ReflTransGen machine.Runs s s' ∧ w ∈ resumed s'.log := by
  obtain ⟨s₁, hexec, hinv, hvalid₁, -, hposted⟩ := h.onWait hvalid k
  obtain ⟨s', hrun, hresumed⟩ := hinv.resumes_posted hvalid₁ (hposted w.proc hin hchild w hfiber)
  refine ⟨s', .head ⟨Action.onWait k, rfl, ?_⟩ (.single hrun), hresumed⟩
  change FreeBSD.exec s (.onWait k) = .ok s₁
  simp only [FreeBSD.exec]
  rw [if_pos hqueued]
  exact hexec

theorem Inv.resumes (h : Inv s) (hvalid : s.valid = true) {w : Wait} (hin : w ∈ s.waiters)
    (hdue : (s.procs w.proc).child ≠ none ∨ .asked w ∈ s.log) :
    ∃ s', ReflTransGen machine.Runs s s' ∧ w ∈ resumed s'.log := by
  have hq := h.queues hvalid
  rcases hq.placed w hin with ⟨o, ho⟩ | ⟨k, hk, hfiber⟩
  · obtain ⟨s', hrun, hresumed⟩ := h.resumes_posted hvalid ho
    exact ⟨s', .single hrun, hresumed⟩
  · obtain ⟨v, -, hv, -, -, -, hnot, -⟩ := hq.event k _ hk
    obtain rfl := Option.some.inj (hv.symm.trans hfiber)
    have hchild := hdue.resolve_right hnot
    have hcalls := h.served hvalid k (.inr (List.ne_nil_of_mem hk))
    by_cases harmed : 0 < (s.services k).armed
    · have hexec : FreeBSD.exec s (.ready k) = .ok (s.setService k { s.services k with
          armed := (s.services k).armed - 1
          queued := (s.services k).queued + 1 }) := by
        simp only [FreeBSD.exec]
        rw [if_pos ⟨harmed, v.proc, hk, hchild⟩]
      obtain ⟨s', hruns, hresumed⟩ := (h.ready harmed).resumes_queued (k := k) (w := v) hvalid
        (by rw [setService_self]; exact Nat.succ_pos _) (by rw [setService_self]; exact hk) hfiber hchild
      exact ⟨s', .head ⟨Action.ready k, rfl, hexec⟩ hruns, hresumed⟩
    · exact h.resumes_queued hvalid (by omega) hk hfiber hchild

/-- The machine of FreeBSD behaves as expected in every run. -/
theorem sound (h : Reachable machine.initial machine.Step s) : machine.Sound s := by
  have hinv := reachable_inv h
  refine ⟨fun p _ => hinv.lawful p, ?_, fun a => (hinv.exec a).1⟩
  rintro p - w hin rfl hvalid hdue
  exact hinv.resumes hvalid hin hdue

end Emilua.Subprocess.FreeBSD
