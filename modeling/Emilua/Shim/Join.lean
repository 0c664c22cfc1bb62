import Emilua.Lib.Transition
import Emilua.Shim.Forwarding

/-!
`join` on the handle of a spawned fiber. A fiber that ends before it is joined keeps
its results on its stack. One that ends later moves them to its joiner.
-/
namespace Emilua.Shim.Join
open Varargs Transition

abbrev Fiber := Nat

/-- A call of `join`. -/
structure Caller where
  id : Nat
  fiber : Fiber
deriving DecidableEq, Repr

/-- `fiber_handle`. -/
structure Handle where
  fiber : Bool
  joinInProgress : Bool
  interruptionCaught : Option Bool
deriving DecidableEq, Repr

inductive Joiner where
  | nil
  | detached
  | thread (c : Caller)
deriving DecidableEq, Repr

inductive FiberStatus where
  | finishedSuccessfully
  | finishedWithError
deriving DecidableEq, Repr

variable {α : Type}

/-- How the body of the fiber ends: it leaves its results on the stack, or an error
above other values. -/
inductive End (α : Type) where
  | returned (rs : List (Value α))
  | raised (below : List (Value α)) (e : Value α)
deriving DecidableEq, Repr

def End.stack : End α → List (Value α)
  | .returned rs => rs
  | .raised below e => below ++ [e]

def End.status : End α → FiberStatus
  | .returned _ => .finishedSuccessfully
  | .raised .. => .finishedWithError

inductive Event (α : Type) where
  | interrupted (c : Caller)
  | joined (c : Caller) (o : Outcome α)
  | refused (c : Caller) (o : Outcome α)
deriving DecidableEq, Repr

/-- `joiner`, `userHandle` and `status` are fields of the fiber in the list of
fibers. `suspended` has the callers in the native `join`, `interrupters` those whose
fiber has its interrupter, and `posted` those whose fiber is going to be resumed by
the interrupter. -/
structure State (α : Type) where
  handle : Handle
  joiner : Joiner
  userHandle : Bool
  status : Option FiberStatus
  stack : List (Value α)
  ended : Option (End α)
  suspended : List Caller
  interrupters : List Caller
  posted : List Caller
  next : Nat
  log : List (Event α)
deriving DecidableEq, Repr

/-- The fiber has just been spawned. -/
def State.start : State α :=
  { handle := ⟨true, false, none⟩, joiner := .nil, userHandle := false, status := none, stack := [], ended := none
    suspended := [], interrupters := [], posted := [], next := 0, log := [] }

/-- A step that is not possible now, and one whose behaviour is undefined. -/
inductive Refusal where
  | disabled
  | undefined
deriving DecidableEq, Repr

/-- `refused` is the error of `EMILUA_CHECK_SUSPEND_ALLOWED`, if there is one. The
fiber that is joined is number 0. -/
inductive Action (α : Type) where
  | join (f : Fiber) (refused : Option (Value α)) (interruptible : Bool)
  | interrupt (f : Fiber)
  | resume (c : Caller)
  | finish (e : End α)
  | detach
  | collect
deriving DecidableEq, Repr

/-- `inspect_errobj` finds `errc::interrupted`. -/
def interruption : Value α → Bool
  | .errc .interrupted => true
  | _ => false

/-- The value on the top of a stack. -/
def top (stack : List (Value α)) : Value α := stack.getLast?.getD .nil

namespace State
variable (L : Length (.nil : Value α))

/-- The native `join` gives its results, or its error, to the function around it. -/
def answer (native : Outcome α) : Outcome α := fiberJoin L (fun _ => native) []

/-- What `join` does for a fiber that has ended. -/
def collectResult (s : State α) (c : Caller) : FiberStatus → State α
  | .finishedSuccessfully =>
      { s with
        handle := ⟨false, s.handle.joinInProgress, some false⟩
        stack := []
        log := .joined c (answer L (.returned (.bool true :: s.stack))) :: s.log }
  | .finishedWithError =>
      let e := top s.stack
      let caught := interruption e
      { s with
        handle := ⟨false, s.handle.joinInProgress, some caught⟩
        stack := s.stack.dropLast
        log := .joined c (answer L (if caught then .returned [.bool true] else .raised e)) :: s.log }

def fiberJoin (s : State α) (f : Fiber) (refused : Option (Value α)) (interruptible : Bool) : State α :=
  let c : Caller := ⟨s.next, f⟩
  let s := { s with next := s.next + 1 }
  match refused with
  | some e => { s with log := .refused c (answer L (.raised e)) :: s.log }
  | none =>
      if s.handle.fiber = false ∨ s.handle.joinInProgress then
        { s with log := .refused c (answer L (.raised (.errc .invalidArgument))) :: s.log }
      else if f = 0 then
        { s with log := .refused c (answer L (.raised (.errc .resourceDeadlockWouldOccur))) :: s.log }
      else
        match s.status with
        | none => { s with
            joiner := .thread c
            userHandle := true
            interrupters := if interruptible then c :: s.interrupters else s.interrupters
            handle := { s.handle with joinInProgress := true }
            suspended := c :: s.suspended }
        | some status => s.collectResult L c status

/-- The interrupter that `join` has set. -/
def interrupt (s : State α) (c : Caller) : State α :=
  { s with
    joiner := .nil
    userHandle := false
    handle := { s.handle with joinInProgress := false }
    posted := s.posted ++ [c]
    interrupters := s.interrupters.erase c
    log := .interrupted c :: s.log }

/-- `fiber_resume`, which clears the interrupter. -/
def resume (s : State α) (c : Caller) (args : List (Value α)) : Except Refusal (State α) :=
  if c ∈ s.suspended then
    .ok { s with
      suspended := s.suspended.erase c
      interrupters := s.interrupters.erase c
      log := .joined c (answer L (.returned args)) :: s.log }
  else .error .undefined

/-- `fiber_epilogue`. -/
def fiberEpilogue (s : State α) (e : End α) : Except Refusal (State α) :=
  let s := { s with ended := some e, stack := e.stack }
  match s.joiner with
  | .detached => .ok s
  | .thread c =>
      let ok : Bool := e.status = .finishedSuccessfully
      let nret := if ok then s.stack.length else 1
      let moved := s.stack.drop (s.stack.length - nret)
      let caught := !ok && interruption (top moved)
      let args := if caught then [.bool true] else .bool ok :: moved
      { s with
        status := some e.status
        stack := s.stack.take (s.stack.length - nret)
        handle := if s.userHandle then ⟨false, s.handle.joinInProgress, some caught⟩ else s.handle }.resume L c args
  | .nil => .ok { s with status := some e.status }

/-- `fiber_detach`, when it is allowed. -/
def detach (s : State α) : State α :=
  { s with joiner := if s.status = none then .detached else s.joiner, handle := { s.handle with fiber := false } }

end State

variable (L : Length (.nil : Value α))

def exec (s : State α) : Action α → Except Refusal (State α)
  | .join f refused interruptible =>
      if (∀ c ∈ s.suspended, c.fiber ≠ f) ∧ (f = 0 → s.ended = none) then .ok (s.fiberJoin L f refused interruptible)
      else .error .disabled
  | .interrupt f =>
      match s.interrupters.find? (·.fiber == f) with
      | some c => .ok (s.interrupt c)
      | none => .error .disabled
  | .resume c =>
      if c ∈ s.posted then
        { s with posted := s.posted.erase c }.resume L c [.bool false, .errc .interrupted]
      else .error .disabled
  | .finish e => if s.ended = none then s.fiberEpilogue L e else .error .disabled
  | .detach =>
      if s.handle.fiber = false ∨ s.handle.joinInProgress then .error .disabled else .ok s.detach
  -- a caller of `join` has the handle on its stack
  | .collect =>
      if s.handle.fiber = false ∨ s.suspended ≠ [] then .error .disabled else .ok s.detach

def Step (s : State α) (a : Action α) (s' : State α) : Prop := exec L s a = .ok s'

abbrev Reached (s : State α) : Prop := Reachable (· = .start) (Step L) s

/-! What the methods of a handle find. -/

/-- `joinable` and `interruption_caught`. Every other method raises an error, or does
nothing, for a handle without a fiber. -/
def Handle.joinable (h : Handle) : Bool := h.fiber && !h.joinInProgress

/-- The handle of a fiber that has been joined. -/
structure Handle.Joined (h : Handle) (caught : Bool) : Prop where
  fiber : h.fiber = false
  caught : h.interruptionCaught = some caught

/-- What `join` gives to its caller. -/
def End.result : End α → Outcome α
  | .returned rs => .returned (L.tail (.bool true :: rs))
  | .raised _ e => if interruption e then .returned [] else .raised e

def End.caught : End α → Bool
  | .returned _ => false
  | .raised _ e => interruption e

section
variable {L}

theorem top_append (below : List (Value α)) (e : Value α) : top (below ++ [e]) = e := by
  simp [top]

theorem answer_status (rs : List (Value α)) :
    State.answer L (.returned (.bool true :: rs)) = .returned (L.tail (.bool true :: rs)) := rfl

theorem answer_error (e : Value α) : State.answer L (.returned [.bool false, e]) = .raised e := rfl

theorem answer_caught : State.answer L (.returned [.bool true]) = .returned [] := by
  rw [answer_status, L.tail_cons (x := .bool true) nofun, List.take_nil]

/-- The result of a fiber that has ended is taken from its stack. -/
theorem collectResult_log (s : State α) (c : Caller) {e : End α} (hstack : s.stack = e.stack) :
    (s.collectResult L c e.status).log = .joined c (e.result L) :: s.log ∧
      (s.collectResult L c e.status).handle.Joined e.caught := by
  cases e with
  | returned rs =>
      simp only [End.status, State.collectResult, hstack]
      exact ⟨rfl, rfl, rfl⟩
  | raised below e =>
      simp only [End.status, State.collectResult, hstack, End.stack, top_append]
      refine ⟨?_, rfl, rfl⟩
      simp only [End.result]
      cases interruption e with
      | true =>
          simp only [if_true]
          rw [answer_caught]
      | false => rfl

/-- The result of a fiber that ends is moved to its joiner. -/
theorem fiberEpilogue_thread {s : State α} {c : Caller} (e : End α) (hjoiner : s.joiner = .thread c)
    (hhandle : s.userHandle = true) (hin : c ∈ s.suspended) : ∃ stack, s.fiberEpilogue L e = .ok { s with
      ended := some e
      stack := stack
      status := some e.status
      handle := ⟨false, s.handle.joinInProgress, some e.caught⟩
      suspended := s.suspended.erase c
      interrupters := s.interrupters.erase c
      log := .joined c (e.result L) :: s.log } := by
  unfold State.fiberEpilogue
  simp only [hjoiner, State.resume, hin, if_true, hhandle]
  cases e with
  | returned rs =>
      refine ⟨[], ?_⟩
      simp [End.stack, End.status, End.caught, End.result, answer_status]
  | raised below e =>
      refine ⟨below, ?_⟩
      simp only [End.stack, End.status, End.caught, End.result, reduceCtorEq, decide_false, Bool.false_eq_true, if_false,
        List.length_append, List.length_singleton, Nat.add_sub_cancel, List.drop_left, List.take_left, Bool.not_false,
        Bool.true_and]
      rw [show top [e] = e from rfl]
      cases interruption e with
      | true =>
          simp only [if_true]
          rw [answer_caught]
      | false => rfl

end

/-! What holds in every run. -/

structure Inv (s : State α) : Prop where
  fresh : ∀ c ∈ s.suspended, c.id < s.next
  nodup : s.suspended.Nodup
  interrupted : ∀ c, .interrupted c ∈ s.log → c.id < s.next
  posted : ∀ c ∈ s.posted, c ∈ s.suspended ∧ .interrupted c ∈ s.log
  distinct : s.posted.Nodup
  waiting : ∀ c ∈ s.suspended, .interrupted c ∉ s.log → s.ended = none ∧ s.joiner = .thread c ∧
    s.handle.fiber = true ∧ s.handle.joinInProgress = true ∧ s.userHandle = true
  interrupters : ∀ c ∈ s.interrupters, c ∈ s.suspended ∧ .interrupted c ∉ s.log
  single : s.interrupters.Nodup
  thread : ∀ c, s.joiner = .thread c → s.ended = none → c ∈ s.suspended ∧ .interrupted c ∉ s.log
  running : s.ended = none → s.status = none
  joinable : s.handle.joinable = true → s.joiner = .nil ∧
    ∀ e, s.ended = some e → s.status = some e.status ∧ s.stack = e.stack
  joined : ∀ c o, .joined c o ∈ s.log → c.id < s.next ∧ c ∉ s.suspended
  result : ∀ c o, .joined c o ∈ s.log → (.interrupted c ∈ s.log ∧ o = .raised (.errc .interrupted)) ∨
    .interrupted c ∉ s.log ∧ ∃ e, s.ended = some e ∧ o = e.result L ∧ s.handle.Joined e.caught

variable {L} {s s' : State α}

theorem Inv.start : Inv L (.start : State α) where
  fresh := nofun
  nodup := List.nodup_nil
  interrupted := nofun
  posted := nofun
  distinct := List.nodup_nil
  waiting := nofun
  interrupters := nofun
  single := List.nodup_nil
  thread := nofun
  running _ := rfl
  joinable _ := ⟨rfl, nofun⟩
  joined := nofun
  result := nofun

/-- A call that raises an error before it looks at the fiber. -/
theorem Inv.refuse (h : Inv L s) (c : Caller) (o : Outcome α) :
    Inv L { s with next := s.next + 1, log := .refused c o :: s.log } := by
  have hinterrupted : ∀ c', .interrupted c' ∈ Event.refused c o :: s.log ↔ .interrupted c' ∈ s.log := by
    intro c'
    rw [List.mem_cons]
    exact or_iff_right nofun
  have hjoined : ∀ c' o', .joined c' o' ∈ Event.refused c o :: s.log ↔ .joined c' o' ∈ s.log := by
    intro c' o'
    rw [List.mem_cons]
    exact or_iff_right nofun
  refine ⟨fun c' hc => Nat.lt_succ_of_lt (h.fresh c' hc), h.nodup, fun c' hc => ?_, fun c' hc => ?_, h.distinct,
    fun c' hc hno => h.waiting c' hc fun hin => hno ((hinterrupted c').mpr hin), fun c' hc => ?_, h.single,
    fun c' hc hlive => ?_, h.running, h.joinable, fun c' o' hc => ?_, fun c' o' hc => ?_⟩
  · exact Nat.lt_succ_of_lt (h.interrupted c' ((hinterrupted c').mp hc))
  · exact ⟨(h.posted c' hc).1, (hinterrupted c').mpr (h.posted c' hc).2⟩
  · exact ⟨(h.interrupters c' hc).1, fun hin => (h.interrupters c' hc).2 ((hinterrupted c').mp hin)⟩
  · exact ⟨(h.thread c' hc hlive).1, fun hin => (h.thread c' hc hlive).2 ((hinterrupted c').mp hin)⟩
  · obtain ⟨hlt, hnot⟩ := h.joined c' o' ((hjoined c' o').mp hc)
    exact ⟨Nat.lt_succ_of_lt hlt, hnot⟩
  · rcases h.result c' o' ((hjoined c' o').mp hc) with ⟨hin, ho⟩ | hresult
    · exact .inl ⟨(hinterrupted c').mpr hin, ho⟩
    · exact .inr ⟨fun hin => hresult.1 ((hinterrupted c').mp hin), hresult.2⟩

/-- The fiber still runs: the caller waits for it. -/
theorem Inv.wait (h : Inv L s) {f : Fiber} (interruptible : Bool) (hfiber : s.handle.fiber = true)
    (hfree : s.handle.joinInProgress = false) (hlive : s.ended = none) :
    Inv L { s with
      next := s.next + 1
      joiner := .thread ⟨s.next, f⟩
      userHandle := true
      interrupters := if interruptible then ⟨s.next, f⟩ :: s.interrupters else s.interrupters
      handle := { s.handle with joinInProgress := true }
      suspended := ⟨s.next, f⟩ :: s.suspended } := by
  have hnew : ⟨s.next, f⟩ ∉ s.suspended := fun hin => Nat.lt_irrefl _ (h.fresh _ hin)
  have hquiet : .interrupted ⟨s.next, f⟩ ∉ s.log := fun hin => Nat.lt_irrefl _ (h.interrupted _ hin)
  have hwait : ∀ c ∈ s.suspended, .interrupted c ∈ s.log := by
    intro c hc
    by_contra hno
    rw [(h.waiting c hc hno).2.2.2.1] at hfree
    cases hfree
  refine ⟨fun c hc => ?_, List.nodup_cons.mpr ⟨hnew, h.nodup⟩, fun c hc => Nat.lt_succ_of_lt (h.interrupted c hc),
    fun c hc => ⟨List.mem_cons_of_mem _ (h.posted c hc).1, (h.posted c hc).2⟩, h.distinct, fun c hc hno => ?_,
    fun c hc => ?_, ?_, fun c hc _ => ?_, h.running, fun hjoin => ?_, fun c o hc => ?_, fun c o hc => ?_⟩
  · rcases List.mem_cons.mp hc with rfl | hc
    · exact Nat.lt_succ_self _
    · exact Nat.lt_succ_of_lt (h.fresh c hc)
  · rcases List.mem_cons.mp hc with rfl | hc
    · exact ⟨hlive, rfl, hfiber, rfl, rfl⟩
    · exact absurd (hwait c hc) hno
  · have hor : c = ⟨s.next, f⟩ ∨ c ∈ s.interrupters := by
      simp only at hc
      split at hc
      · exact List.mem_cons.mp hc
      · exact .inr hc
    rcases hor with rfl | hc
    · exact ⟨List.mem_cons_self .., hquiet⟩
    · exact absurd (hwait c (h.interrupters c hc).1) (h.interrupters c hc).2
  · simp only
    split
    · exact List.nodup_cons.mpr ⟨fun hin => hnew (h.interrupters _ hin).1, h.single⟩
    · exact h.single
  · obtain rfl := Joiner.thread.inj hc
    exact ⟨List.mem_cons_self .., hquiet⟩
  · rw [Handle.joinable, Bool.not_true, Bool.and_false] at hjoin
    cases hjoin
  · obtain ⟨hlt, hnot⟩ := h.joined c o hc
    refine ⟨Nat.lt_succ_of_lt hlt, fun hin => ?_⟩
    rcases List.mem_cons.mp hin with rfl | hin
    · exact Nat.lt_irrefl _ hlt
    · exact hnot hin
  · exact (h.result c o hc).imp_right fun ⟨_, e, he, _⟩ => absurd (hlive.symm.trans he) nofun

theorem Handle.Joined.not_joinable {x : Handle} {caught : Bool} (h : x.Joined caught) : x.joinable ≠ true := by
  rw [Handle.joinable, h.fiber]
  exact nofun

/-- The result of the fiber is given to a caller, and the handle loses the fiber. -/
theorem Inv.deliver (h : Inv L s) {c : Caller} {e : End α} (hended : s'.ended = some e)
    (hhandle : s'.handle.Joined e.caught) (hsuspended : s'.suspended = s.suspended.erase c)
    (hinterrupters : s'.interrupters = s.interrupters.erase c) (hposted : s'.posted = s.posted)
    (hlog : s'.log = .joined c (e.result L) :: s.log) (hid : c.id < s'.next) (hnext : s.next ≤ s'.next)
    (hothers : ∀ c' ∈ s.suspended, c' ≠ c → .interrupted c' ∈ s.log) (hquiet : .interrupted c ∉ s.log)
    (hearlier : ∀ c' o, .joined c' o ∈ s.log → .interrupted c' ∈ s.log ∧ o = .raised (.errc .interrupted)) :
    Inv L s' := by
  have hmem : ∀ c', c' ∈ s'.suspended ↔ c' ≠ c ∧ c' ∈ s.suspended := by
    intro c'
    rw [hsuspended]
    exact h.nodup.mem_erase_iff
  have hinterrupted : ∀ c', .interrupted c' ∈ s'.log ↔ .interrupted c' ∈ s.log := by
    intro c'
    rw [hlog, List.mem_cons]
    exact or_iff_right nofun
  have hlive : s'.ended ≠ none := by
    rw [hended]
    exact nofun
  refine ⟨fun c' hc => ?_, ?_, fun c' hc => ?_, fun c' hc => ?_, ?_, fun c' hc hno => ?_, fun c' hc => ?_,
    ?_, fun _ _ hnone => absurd hnone hlive, fun hnone => absurd hnone hlive, fun hjoin => absurd hjoin hhandle.not_joinable,
    fun c' o hc => ?_, fun c' o hc => ?_⟩
  · exact Nat.lt_of_lt_of_le (h.fresh c' ((hmem c').mp hc).2) hnext
  · rw [hsuspended]
    exact h.nodup.erase c
  · exact Nat.lt_of_lt_of_le (h.interrupted c' ((hinterrupted c').mp hc)) hnext
  · rw [hposted] at hc
    obtain ⟨hin, hasked⟩ := h.posted c' hc
    exact ⟨(hmem c').mpr ⟨fun heq => hquiet (heq ▸ hasked), hin⟩, (hinterrupted c').mpr hasked⟩
  · rw [hposted]
    exact h.distinct
  · obtain ⟨hne, hin⟩ := (hmem c').mp hc
    exact absurd ((hinterrupted c').mpr (hothers c' hin hne)) hno
  · rw [hinterrupters] at hc
    obtain ⟨hne, hc⟩ := h.single.mem_erase_iff.mp hc
    obtain ⟨hin, hno⟩ := h.interrupters c' hc
    exact ⟨(hmem c').mpr ⟨hne, hin⟩, fun hasked => hno ((hinterrupted c').mp hasked)⟩
  · rw [hinterrupters]
    exact h.single.erase c
  · rw [hlog] at hc
    rcases List.mem_cons.mp hc with heq | hc
    · obtain ⟨rfl, -⟩ := Event.joined.inj heq
      exact ⟨hid, fun hin => ((hmem c').mp hin).1 rfl⟩
    · obtain ⟨hlt, hno⟩ := h.joined c' o hc
      exact ⟨Nat.lt_of_lt_of_le hlt hnext, fun hin => hno ((hmem c').mp hin).2⟩
  · rw [hlog] at hc
    rcases List.mem_cons.mp hc with heq | hc
    · obtain ⟨rfl, rfl⟩ := Event.joined.inj heq
      exact .inr ⟨fun hin => hquiet ((hinterrupted c').mp hin), e, hended, rfl, hhandle⟩
    · obtain ⟨hasked, ho⟩ := hearlier c' o hc
      exact .inl ⟨(hinterrupted c').mpr hasked, ho⟩

theorem collectResult_frame (s : State α) (c : Caller) (status : FiberStatus) :
    (s.collectResult L c status).ended = s.ended ∧ (s.collectResult L c status).suspended = s.suspended ∧
      (s.collectResult L c status).interrupters = s.interrupters ∧ (s.collectResult L c status).posted = s.posted ∧
      (s.collectResult L c status).next = s.next := by
  cases status <;> exact ⟨rfl, rfl, rfl, rfl, rfl⟩

/-- While the handle has the fiber, only calls that have been interrupted are over. -/
theorem Inv.earlier (h : Inv L s) (hfiber : s.handle.fiber = true ∨ s.ended = none) (c : Caller) (o : Outcome α)
    (hin : .joined c o ∈ s.log) : .interrupted c ∈ s.log ∧ o = .raised (.errc .interrupted) := by
  rcases h.result c o hin with hinterrupted | ⟨-, e, he, -, hhandle⟩
  · exact hinterrupted
  · rcases hfiber with hfiber | hlive
    · exact absurd (hfiber.symm.trans hhandle.fiber) nofun
    · exact absurd (hlive.symm.trans he) nofun

/-- The fiber has ended: the caller gets its result. -/
theorem Inv.collect (h : Inv L s) {f : Fiber} {e : End α} (hfiber : s.handle.fiber = true)
    (hfree : s.handle.joinInProgress = false) (hended : s.ended = some e) :
    Inv L (({ s with next := s.next + 1 } : State α).collectResult L ⟨s.next, f⟩ e.status) := by
  have hjoinable : s.handle.joinable = true := by
    rw [Handle.joinable, hfiber, hfree]
    rfl
  obtain ⟨hlog, hhandle⟩ := collectResult_log (L := L) { s with next := s.next + 1 } ⟨s.next, f⟩
    ((h.joinable hjoinable).2 e hended).2
  obtain ⟨hended', hsuspended, hinterrupters, hposted, hnext⟩ :=
    collectResult_frame (L := L) { s with next := s.next + 1 } ⟨s.next, f⟩ e.status
  have hnew : ⟨s.next, f⟩ ∉ s.suspended := fun hin => Nat.lt_irrefl _ (h.fresh _ hin)
  refine h.deliver (hended'.trans hended) hhandle ?_ ?_ hposted hlog ?_ ?_ (fun c hc _ => ?_)
    (fun hin => Nat.lt_irrefl _ (h.interrupted _ hin)) (h.earlier (.inl hfiber))
  · rw [hsuspended, List.erase_of_not_mem hnew]
  · rw [hinterrupters, List.erase_of_not_mem fun hin => hnew (h.interrupters _ hin).1]
  · rw [hnext]
    exact Nat.lt_succ_self _
  · rw [hnext]
    exact Nat.le_succ _
  · by_contra hno
    exact absurd ((h.waiting c hc hno).1.symm.trans hended) nofun

theorem fiberJoin_wait {f : Fiber} (interruptible : Bool) (hfiber : s.handle.fiber = true)
    (hfree : s.handle.joinInProgress = false) (hself : f ≠ 0) (hstatus : s.status = none) :
    s.fiberJoin L f none interruptible = { s with
      next := s.next + 1
      joiner := .thread ⟨s.next, f⟩
      userHandle := true
      interrupters := if interruptible then ⟨s.next, f⟩ :: s.interrupters else s.interrupters
      handle := { s.handle with joinInProgress := true }
      suspended := ⟨s.next, f⟩ :: s.suspended } := by
  simp [State.fiberJoin, hfiber, hfree, hself, hstatus]

theorem fiberJoin_collect {f : Fiber} (interruptible : Bool) {status : FiberStatus} (hfiber : s.handle.fiber = true)
    (hfree : s.handle.joinInProgress = false) (hself : f ≠ 0) (hstatus : s.status = some status) :
    s.fiberJoin L f none interruptible =
      ({ s with next := s.next + 1 } : State α).collectResult L ⟨s.next, f⟩ status := by
  simp [State.fiberJoin, hfiber, hfree, hself, hstatus]

theorem Inv.join (h : Inv L s) (f : Fiber) (refused : Option (Value α)) (interruptible : Bool) :
    Inv L (s.fiberJoin L f refused interruptible) := by
  cases refused with
  | some e => exact h.refuse _ _
  | none =>
      by_cases hhandle : s.handle.fiber = false ∨ s.handle.joinInProgress = true
      · simp only [State.fiberJoin]
        rw [if_pos hhandle]
        exact h.refuse _ _
      by_cases hself : f = 0
      · simp only [State.fiberJoin]
        rw [if_neg hhandle, if_pos hself]
        exact h.refuse _ _
      have hfiber : s.handle.fiber = true := by simpa using fun hno => hhandle (.inl hno)
      have hfree : s.handle.joinInProgress = false := by simpa using fun hno => hhandle (.inr hno)
      cases hended : s.ended with
      | none =>
          rw [fiberJoin_wait interruptible hfiber hfree hself (h.running hended)]
          exact h.wait interruptible hfiber hfree hended
      | some e =>
          have hjoinable : s.handle.joinable = true := by
            rw [Handle.joinable, hfiber, hfree]
            rfl
          rw [fiberJoin_collect interruptible hfiber hfree hself ((h.joinable hjoinable).2 e hended).1]
          exact h.collect hfiber hfree hended

/-- The joiner is not in the fiber any more. -/
theorem Inv.interrupt (h : Inv L s) {c : Caller} (hin : c ∈ s.interrupters) :
    Inv L (s.interrupt c) ∧ (s.interrupt c).handle.joinable = true ∧ s.ended = none := by
  obtain ⟨hsuspended, hno⟩ := h.interrupters c hin
  obtain ⟨hlive, hjoiner, hfiber, hbusy, huser⟩ := h.waiting c hsuspended hno
  have honly : ∀ c' ∈ s.suspended, .interrupted c' ∉ s.log → c' = c := by
    intro c' hc' hno'
    exact Joiner.thread.inj ((h.waiting c' hc' hno').2.1.symm.trans hjoiner)
  have hinterrupted : ∀ c', .interrupted c' ∈ Event.interrupted c :: s.log ↔ c' = c ∨ .interrupted c' ∈ s.log := by
    intro c'
    rw [List.mem_cons, Event.interrupted.injEq]
  have hjoined : ∀ c' o, .joined c' o ∈ Event.interrupted c :: s.log ↔ .joined c' o ∈ s.log := by
    intro c' o
    rw [List.mem_cons]
    exact or_iff_right nofun
  refine ⟨⟨h.fresh, h.nodup, fun c' hc => ?_, fun c' hc => ?_, ?_, fun c' hc hno' => ?_, fun c' hc => ?_,
    h.single.erase c, nofun, h.running, fun _ => ⟨rfl, fun e he => ?_⟩, fun c' o hc => ?_, fun c' o hc => ?_⟩, ?_, hlive⟩
  · rcases (hinterrupted c').mp hc with rfl | hc
    · exact h.fresh c' hsuspended
    · exact h.interrupted c' hc
  · rcases List.mem_append.mp hc with hc | hc
    · exact ⟨(h.posted c' hc).1, (hinterrupted c').mpr (.inr (h.posted c' hc).2)⟩
    · obtain rfl := List.mem_singleton.mp hc
      exact ⟨hsuspended, (hinterrupted c').mpr (.inl rfl)⟩
  · refine List.nodup_append'.mpr ⟨h.distinct, List.nodup_singleton c, fun c' hc hc' => ?_⟩
    obtain rfl := List.mem_singleton.mp hc'
    exact hno (h.posted c' hc).2
  · refine absurd ((hinterrupted c').mpr ?_) hno'
    by_cases hasked : .interrupted c' ∈ s.log
    · exact .inr hasked
    · exact .inl (honly c' hc hasked)
  · obtain ⟨hne, hc⟩ := h.single.mem_erase_iff.mp hc
    obtain ⟨hin', hno'⟩ := h.interrupters c' hc
    exact absurd (honly c' hin' hno') hne
  · exact absurd (hlive.symm.trans he) nofun
  · exact h.joined c' o ((hjoined c' o).mp hc)
  · obtain ⟨hasked, ho⟩ := h.earlier (.inr hlive) c' o ((hjoined c' o).mp hc)
    exact .inl ⟨(hinterrupted c').mpr (.inr hasked), ho⟩
  · change (s.handle.fiber && !false) = true
    rw [hfiber]
    rfl

/-- The caller that has been interrupted is resumed. -/
theorem Inv.resume (h : Inv L s) {c : Caller} (hin : c ∈ s.posted) :
    ∃ s', ({ s with posted := s.posted.erase c } : State α).resume L c [.bool false, .errc .interrupted] = .ok s' ∧
      Inv L s' := by
  obtain ⟨hsuspended, hasked⟩ := h.posted c hin
  have hmem : ∀ c', c' ∈ s.suspended.erase c ↔ c' ≠ c ∧ c' ∈ s.suspended := fun c' => h.nodup.mem_erase_iff
  have hinterrupted : ∀ c' o, .interrupted c' ∈ Event.joined c o :: s.log ↔ .interrupted c' ∈ s.log := by
    intro c' o
    rw [List.mem_cons]
    exact or_iff_right nofun
  unfold State.resume
  rw [if_pos hsuspended, answer_error]
  refine ⟨_, rfl, fun c' hc => h.fresh c' ((hmem c').mp hc).2, h.nodup.erase c,
    fun c' hc => h.interrupted c' ((hinterrupted c' _).mp hc), fun c' hc => ?_, h.distinct.erase c, fun c' hc hno => ?_,
    fun c' hc => ?_, h.single.erase c, fun c' hc hlive => ?_, h.running, h.joinable, fun c' o hc => ?_,
    fun c' o hc => ?_⟩
  · obtain ⟨hne, hc⟩ := h.distinct.mem_erase_iff.mp hc
    exact ⟨(hmem c').mpr ⟨hne, (h.posted c' hc).1⟩, (hinterrupted c' _).mpr (h.posted c' hc).2⟩
  · exact h.waiting c' ((hmem c').mp hc).2 fun hin => hno ((hinterrupted c' _).mpr hin)
  · obtain ⟨hne, hc⟩ := h.single.mem_erase_iff.mp hc
    obtain ⟨hin', hno⟩ := h.interrupters c' hc
    exact ⟨(hmem c').mpr ⟨hne, hin'⟩, fun hin => hno ((hinterrupted c' _).mp hin)⟩
  · obtain ⟨hin', hno⟩ := h.thread c' hc hlive
    refine ⟨(hmem c').mpr ⟨?_, hin'⟩, fun hin => hno ((hinterrupted c' _).mp hin)⟩
    rintro rfl
    exact hno hasked
  · rcases List.mem_cons.mp hc with heq | hc
    · obtain ⟨rfl, -⟩ := Event.joined.inj heq
      exact ⟨h.fresh c' hsuspended, fun hin => ((hmem c').mp hin).1 rfl⟩
    · exact ⟨(h.joined c' o hc).1, fun hin => (h.joined c' o hc).2 ((hmem c').mp hin).2⟩
  · rcases List.mem_cons.mp hc with heq | hc
    · obtain ⟨rfl, rfl⟩ := Event.joined.inj heq
      exact .inl ⟨(hinterrupted c' _).mpr hasked, rfl⟩
    · rcases h.result c' o hc with ⟨hin', ho⟩ | ⟨hno, hresult⟩
      · exact .inl ⟨(hinterrupted c' _).mpr hin', ho⟩
      · exact .inr ⟨fun hin' => hno ((hinterrupted c' _).mp hin'), hresult⟩

/-- The fiber ends. -/
theorem Inv.finish (h : Inv L s) (e : End α) (hlive : s.ended = none) :
    ∃ s', s.fiberEpilogue L e = .ok s' ∧ Inv L s' ∧ ∀ c ∈ s.suspended, .interrupted c ∉ s.log →
      .joined c (e.result L) ∈ s'.log ∧ s'.handle.Joined e.caught := by
  have hjoined : ∀ c o, .joined c o ∈ s.log → .interrupted c ∈ s.log ∧ o = .raised (.errc .interrupted) :=
    h.earlier (.inr hlive)
  cases hjoiner : s.joiner with
  | thread c =>
      obtain ⟨hin, hno⟩ := h.thread c hjoiner hlive
      obtain ⟨-, -, hfiber, hbusy, huser⟩ := h.waiting c hin hno
      have honly : ∀ c' ∈ s.suspended, .interrupted c' ∉ s.log → c' = c := by
        intro c' hc' hno'
        exact Joiner.thread.inj ((h.waiting c' hc' hno').2.1.symm.trans hjoiner)
      obtain ⟨stack, hexec⟩ := fiberEpilogue_thread (L := L) e hjoiner huser hin
      refine ⟨_, hexec, h.deliver rfl ⟨rfl, rfl⟩ rfl rfl rfl rfl (h.fresh c hin) (Nat.le_refl _) (fun c' hc' hne => ?_)
        hno hjoined, fun c' hc' hno' => ?_⟩
      · by_contra hno'
        exact hne (honly c' hc' hno')
      · rw [honly c' hc' hno']
        exact ⟨List.mem_cons_self .., rfl, rfl⟩
  | detached =>
      have hnobody : ∀ c ∈ s.suspended, .interrupted c ∈ s.log := by
        intro c hc
        by_contra hno
        exact absurd ((h.waiting c hc hno).2.1.symm.trans hjoiner) nofun
      unfold State.fiberEpilogue
      simp only [hjoiner]
      refine ⟨_, rfl, ⟨h.fresh, h.nodup, h.interrupted, h.posted, h.distinct, fun c hc hno => absurd (hnobody c hc) hno,
        h.interrupters, h.single, nofun, nofun, fun hjoin => ?_, h.joined, fun c o hc => .inl (hjoined c o hc)⟩,
        fun c hc hno => absurd (hnobody c hc) hno⟩
      exact absurd (hjoiner.symm.trans (h.joinable hjoin).1) nofun
  | nil =>
      have hnobody : ∀ c ∈ s.suspended, .interrupted c ∈ s.log := by
        intro c hc
        by_contra hno
        exact absurd ((h.waiting c hc hno).2.1.symm.trans hjoiner) nofun
      unfold State.fiberEpilogue
      simp only [hjoiner]
      refine ⟨_, rfl, ⟨h.fresh, h.nodup, h.interrupted, h.posted, h.distinct, fun c hc hno => absurd (hnobody c hc) hno,
        h.interrupters, h.single, nofun, nofun, fun _ => ⟨rfl, fun e' he => ?_⟩, h.joined,
        fun c o hc => .inl (hjoined c o hc)⟩, fun c hc hno => absurd (hnobody c hc) hno⟩
      obtain rfl := Option.some.inj he
      exact ⟨rfl, rfl⟩

/-- The handle is detached or collected. -/
theorem Inv.detach (h : Inv L s) (hfree : ∀ c ∈ s.suspended, .interrupted c ∈ s.log)
    (hfiber : s.handle.fiber = true) : Inv L s.detach where
  fresh := h.fresh
  nodup := h.nodup
  interrupted := h.interrupted
  posted := h.posted
  distinct := h.distinct
  waiting c hc hno := absurd (hfree c hc) hno
  interrupters := h.interrupters
  single := h.single
  thread c hc hlive := by
    simp only [State.detach, h.running hlive, if_true] at hc
    cases hc
  running := h.running
  joinable hjoin := by
    cases hjoin
  joined := h.joined
  result c o hc := .inl (h.earlier (.inl hfiber) c o hc)

/-- A step keeps the invariant and is defined. -/
theorem Inv.exec (h : Inv L s) (a : Action α) :
    exec L s a ≠ .error .undefined ∧ ∀ s', exec L s a = .ok s' → Inv L s' := by
  have hok : ∀ {x : Except Refusal (State α)} {s₁}, x = .ok s₁ → Inv L s₁ →
      x ≠ .error .undefined ∧ ∀ s', x = .ok s' → Inv L s' := by
    rintro x s₁ rfl hinv
    refine ⟨nofun, fun s' heq => ?_⟩
    rw [← Except.ok.inj heq]
    exact hinv
  have hno : (Except.error .disabled : Except Refusal (State α)) ≠ .error .undefined ∧
      ∀ s', (.error .disabled : Except Refusal (State α)) = .ok s' → Inv L s' := ⟨by simp, fun s' heq => by cases heq⟩
  cases a with
  | join f refused interruptible =>
      simp only [Join.exec]
      split
      · exact hok rfl (h.join f refused interruptible)
      · exact hno
  | interrupt f =>
      simp only [Join.exec]
      split
      · rename_i c hfind
        exact hok rfl (h.interrupt (List.mem_of_find?_eq_some hfind)).1
      · exact hno
  | resume c =>
      simp only [Join.exec]
      split
      · rename_i hin
        obtain ⟨s₁, hexec, hinv⟩ := h.resume hin
        exact hok hexec hinv
      · exact hno
  | finish e =>
      simp only [Join.exec]
      by_cases hlive : s.ended = none
      · rw [if_pos hlive]
        obtain ⟨s₁, hexec, hinv, -⟩ := h.finish e hlive
        exact hok hexec hinv
      · rw [if_neg hlive]
        exact hno
  | detach =>
      simp only [Join.exec]
      split
      · exact hno
      · rename_i hhandle
        refine hok rfl (h.detach (fun c hc => ?_) (by simpa using fun hno => hhandle (.inl hno)))
        by_contra hno
        exact hhandle (.inr (h.waiting c hc hno).2.2.2.1)
  | collect =>
      simp only [Join.exec]
      split
      · exact hno
      · rename_i hhandle
        refine hok rfl (h.detach (fun c hc => ?_) (by simpa using fun hno => hhandle (.inl hno)))
        exact absurd (List.ne_nil_of_mem hc) fun hne => hhandle (.inr hne)

theorem reached_inv (h : Reached L s) : Inv L s := by
  refine h.invariant ?_ fun s a s' hs hstep => (hs.exec a).2 s' hstep
  rintro s rfl
  exact .start

/-- What is expected of `join`: its result, and what it leaves of the handle, depend
on how the fiber has ended and on nothing else. -/
structure Sound (L : Length (.nil : Value α)) (s : State α) : Prop where
  result : ∀ c o, .joined c o ∈ s.log → .interrupted c ∉ s.log →
    ∃ e, s.ended = some e ∧ o = e.result L ∧ s.handle.Joined e.caught
  interrupted : ∀ c o, .joined c o ∈ s.log → .interrupted c ∈ s.log → o = .raised (.errc .interrupted)
  ended : ∀ (e : End α) (f : Fiber) (interruptible : Bool), s.ended = some e → s.handle.joinable = true → f ≠ 0 →
    (∀ c ∈ s.suspended, c.fiber ≠ f) → ∃ s', Step L s (.join f none interruptible) s' ∧
      .joined ⟨s.next, f⟩ (e.result L) ∈ s'.log ∧ s'.handle.Joined e.caught
  running : ∀ (f : Fiber) (interruptible : Bool), s.ended = none → s.handle.joinable = true → f ≠ 0 →
    (∀ c ∈ s.suspended, c.fiber ≠ f) → ∃ s', Step L s (.join f none interruptible) s' ∧ ⟨s.next, f⟩ ∈ s'.suspended
  waiting : ∀ (e : End α) (c : Caller), c ∈ s.suspended → .interrupted c ∉ s.log →
    ∃ s', Step L s (.finish e) s' ∧ .joined c (e.result L) ∈ s'.log ∧ s'.handle.Joined e.caught
  intact : ∀ (f : Fiber) (s' : State α), Step L s (.interrupt f) s' → s'.handle.joinable = true ∧
    s'.ended = s.ended ∧ s'.status = s.status ∧ s'.stack = s.stack
  defined : ∀ a, exec L s a ≠ .error .undefined

/-- Every join gives the result of the fiber, before and after its end, and one that
is interrupted leaves it to the next. -/
theorem join_sound (L : Length (.nil : Value α)) {s : State α} (h : Reached L s) : Sound L s := by
  have hinv := reached_inv h
  have hhandle : s.handle.joinable = true → s.handle.fiber = true ∧ s.handle.joinInProgress = false := by
    intro hjoinable
    simpa [Handle.joinable] using hjoinable
  refine ⟨fun c o hc hno => ?_, fun c o hc hasked => ?_, fun e f i hended hjoinable hself hfree => ?_,
    fun f i hlive hjoinable hself hfree => ?_, fun e c hc hno => ?_, fun f s' hstep => ?_, fun a => (hinv.exec a).1⟩
  · exact ((hinv.result c o hc).resolve_left fun hres => hno hres.1).2
  · exact ((hinv.result c o hc).resolve_right fun hres => hres.1 hasked).2
  · obtain ⟨hfiber, hidle⟩ := hhandle hjoinable
    obtain ⟨hstatus, hstack⟩ := (hinv.joinable hjoinable).2 e hended
    obtain ⟨hlog, hjoined⟩ := collectResult_log (L := L) { s with next := s.next + 1 } ⟨s.next, f⟩ hstack
    refine ⟨_, ?_, ?_, hjoined⟩
    · simp only [Step, exec]
      rw [if_pos ⟨hfree, fun hzero => absurd hzero hself⟩, fiberJoin_collect i hfiber hidle hself hstatus]
    · rw [hlog]
      exact List.mem_cons_self ..
  · obtain ⟨hfiber, hidle⟩ := hhandle hjoinable
    refine ⟨s.fiberJoin L f none i, ?_, ?_⟩
    · simp only [Step, exec]
      rw [if_pos ⟨hfree, fun _ => hlive⟩]
    · rw [fiberJoin_wait i hfiber hidle hself (hinv.running hlive)]
      exact List.mem_cons_self ..
  · have hlive := (hinv.waiting c hc hno).1
    obtain ⟨s', hexec, -, hjoined⟩ := hinv.finish e hlive
    refine ⟨s', ?_, hjoined c hc hno⟩
    simp only [Step, exec]
    rw [if_pos hlive]
    exact hexec
  · simp only [Step, exec] at hstep
    split at hstep
    · rename_i c hfind
      cases hstep
      obtain ⟨-, hjoinable, -⟩ := hinv.interrupt (List.mem_of_find?_eq_some hfind)
      exact ⟨hjoinable, rfl, rfl, rfl⟩
    · cases hstep

/-- The first join is interrupted, and the fiber ends before the second one. -/
def interruptedJoin : List (Action Nat) :=
  [.join 1 none true, .interrupt 1, .finish (.returned [.other 7]), .resume ⟨0, 1⟩, .join 2 none true]

theorem join_sound_interrupted : ∃ s : State Nat, Sound (firstBorder (.nil : Value Nat)) s ∧
    s.log = [.joined ⟨1, 2⟩ (.returned [.other 7]), .joined ⟨0, 1⟩ (.raised (.errc .interrupted)),
      .interrupted ⟨0, 1⟩] := by
  have hrun : (runIf (exec (firstBorder (.nil : Value Nat))) (fun _ _ => true) .start interruptedJoin).map State.log =
      some [.joined ⟨1, 2⟩ (.returned [.other 7]), .joined ⟨0, 1⟩ (.raised (.errc .interrupted)),
        .interrupted ⟨0, 1⟩] := by decide
  obtain ⟨s, hs, hlog⟩ := Option.map_eq_some_iff.mp hrun
  have hreached : Reached (firstBorder (.nil : Value Nat)) s := Reachable.of_restrict (reachable_of_runIf ⟨State.start, rfl, .refl⟩ hs)
  exact ⟨s, join_sound _ hreached, hlog⟩

/-- The methods of a handle that has lost its fiber do not look at
`join_in_progress`, which differs. -/
theorem exec_joinInProgress (L : Length (.nil : Value α)) {s : State α} (h : s.handle.fiber = false) (b : Bool)
    {a : Action α} (hmethod : (∃ f refused i, a = .join f refused i) ∨ a = .detach ∨ a = .collect) :
    exec L { s with handle := { s.handle with joinInProgress := b } } a =
      (exec L s a).map fun s' => { s' with handle := { s'.handle with joinInProgress := b } } := by
  rcases hmethod with ⟨f, refused, i, rfl⟩ | rfl | rfl
  · simp only [exec]
    split
    · cases refused <;> simp [State.fiberJoin, h, Except.map]
    · rfl
  · simp [exec, h, Except.map]
  · simp [exec, h, Except.map]

end Emilua.Shim.Join
