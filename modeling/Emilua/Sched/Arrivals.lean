import Emilua.Sched.Resumes

/-!
The wait lists keep the order of arrival: a list holds the fibers that have
suspended in it, in this order, and for which no resume has been posted since.
-/
namespace Emilua.Sched
open Transition

/-- The fibers that wait in `q`, read from the history. -/
def Event.waits (q : Queue) (xs : List FiberId) : Event → List FiberId
  | .suspend f (.queue q') _ => if q' = q then xs ++ [f] else xs
  | .post f => xs.erase f
  | _ => xs

def State.line (s : State) (q : Queue) : List FiberId := s.log.foldl (Event.waits q) []

def Queued (s : State) : Prop := ∀ q, s.queues q = s.line q

section
variable {s s' : State} {f g : FiberId} {m : Nat} {w : Wait} {q : Queue}

theorem State.line_append {l : List Event} (hlog : s'.log = s.log ++ l) (q : Queue) :
    s'.line q = l.foldl (Event.waits q) (s.line q) := by
  rw [State.line, hlog, List.foldl_append]
  rfl

@[simp] theorem queued_setFiber (k : Fiber → Fiber) : Queued (s.setFiber f k) ↔ Queued s := Iff.rfl

@[simp] theorem queued_setHandle (k : Handle → Handle) : Queued (s.setHandle f k) ↔ Queued s := Iff.rfl

@[simp] theorem queued_setHolders (m : Nat) (xs : List FiberId) : Queued (s.setHolders m xs) ↔ Queued s := Iff.rfl

@[simp] theorem queued_setLocked (m : Nat) (b : Bool) : Queued (s.setLocked m b) ↔ Queued s := Iff.rfl

@[simp] theorem queued_setOwner (m : Nat) (o : Option FiberId) (n : Nat) : Queued (s.setOwner m o n) ↔ Queued s :=
  Iff.rfl

@[simp] theorem queued_setFuture (p : Nat) (x : FutureState) : Queued (s.setFuture p x) ↔ Queued s := Iff.rfl

@[simp] theorem queued_setOps (ops : List Op) : Queued (s.setOps ops) ↔ Queued s := Iff.rfl

@[simp] theorem queued_setSends (sends : List (FiberId × Bool)) : Queued (s.setSends sends) ↔ Queued s := Iff.rfl

@[simp] theorem queued_setReceiver (r : Option FiberId) : Queued (s.setReceiver r) ↔ Queued s := Iff.rfl

@[simp] theorem queued_unlist : Queued (s.unlist f) ↔ Queued s := Iff.rfl

@[simp] theorem queued_stop (ok : Bool) : Queued (s.stop f ok) ↔ Queued s := Iff.rfl

@[simp] theorem queued_addFiber (x : Fiber) : Queued (s.addFiber x) ↔ Queued s := Iff.rfl

/-- An event that is neither an arrival nor a departure. -/
theorem queued_of_log {e : Event} (he : ∀ q xs, e.waits q xs = xs) (hqueues : s'.queues = s.queues)
    (hlog : s'.log = s.log ++ [e]) : Queued s' ↔ Queued s := by
  refine forall_congr' fun q => ?_
  rw [State.line_append hlog, List.foldl_cons, List.foldl_nil, he, hqueues]

theorem queued_record {e : Event} (he : ∀ q xs, e.waits q xs = xs) : Queued (s.record e) ↔ Queued s :=
  queued_of_log he rfl rfl

@[simp] theorem queued_mark : Queued (s.mark f) ↔ Queued s := queued_of_log (e := .interrupt f) (fun _ _ => rfl) rfl rfl

@[simp] theorem queued_run (o : Outcome) (k : Bool) : Queued (s.run f w o k) ↔ Queued s :=
  queued_of_log (e := .resume f w o) (fun _ _ => rfl) rfl rfl

@[simp] theorem queued_release (ok : Bool) : Queued (s.release f ok) ↔ Queued s := by
  unfold State.release
  simp only
  split
  all_goals exact queued_of_log (e := .joined f) (fun _ _ => rfl) rfl rfl

theorem queued_suspend (hw : ∀ q, w ≠ .queue q) (i : Interrupter) : Queued (s.suspend f w i) ↔ Queued s := by
  refine queued_of_log (e := .suspend f w (s.fibers f).disabled.on) (fun q xs => ?_) rfl rfl
  cases w with
  | queue q => exact absurd rfl (hw q)
  | _ => rfl

/-- A fiber goes to the end of a list. -/
theorem Queued.enqueue (h : Queued s) (f : FiberId) (q : Queue) (i : Interrupter) : Queued (s.enqueue f q i) := by
  intro q'
  have hlog : (s.enqueue f q i).log = s.log ++ [.suspend f (.queue q) (s.fibers f).disabled.on] := rfl
  rw [State.line_append hlog, List.foldl_cons, List.foldl_nil]
  change Function.update s.queues q (s.queues q ++ [f]) q' = if q = q' then s.line q' ++ [f] else s.line q'
  by_cases hq : q = q'
  · subst hq
    rw [Function.update_self, if_pos rfl, h q]
  · rw [Function.update_of_ne (Ne.symm hq), if_neg hq]
    exact h q'

/-- A fiber that waits in no list is resumed. -/
theorem Queued.post (h : Queued s) (hf : ∀ q, f ∉ s.queues q) (a : Args) (k : Bool) : Queued (s.post f a k) := by
  intro q
  rw [State.line_append (show (s.post f a k).log = s.log ++ [.post f] from rfl), List.foldl_cons, List.foldl_nil]
  change s.queues q = (s.line q).erase f
  rw [← h q, List.erase_of_not_mem (hf q)]

/-- A fiber is taken out of its list and resumed. -/
theorem Queued.take (h : Queued s) (hf : ∀ q', q' ≠ q → f ∉ s.queues q') (a : Args) (k : Bool) :
    Queued ((s.setQueue q ((s.queues q).erase f)).post f a k) := by
  intro q'
  have hlog : ((s.setQueue q ((s.queues q).erase f)).post f a k).log = s.log ++ [.post f] := rfl
  rw [State.line_append hlog, List.foldl_cons, List.foldl_nil]
  change Function.update s.queues q ((s.queues q).erase f) q' = (s.line q').erase f
  rw [← h q']
  by_cases hq : q' = q
  · subst hq
    rw [Function.update_self]
  · rw [Function.update_of_ne hq, List.erase_of_not_mem (hf q' hq)]

theorem Queued.head (h : Queued s) {rest : List FiberId} (hq : s.queues q = f :: rest)
    (hf : ∀ q', q' ≠ q → f ∉ s.queues q') (a : Args) (k : Bool) : Queued ((s.setQueue q rest).post f a k) := by
  have htake := h.take hf a k
  rwa [hq, List.erase_cons_head] at htake

theorem foldl_waits_post (q : Queue) (xs ys : List FiberId) :
    (ys.map Event.post).foldl (Event.waits q) xs = xs.diff ys := by
  induction ys generalizing xs with
  | nil => rfl
  | cons y ys ih => rw [List.map_cons, List.foldl_cons, ih, List.diff_cons, Event.waits]

theorem diff_of_disjoint {xs ys : List FiberId} (h : ∀ f ∈ ys, f ∉ xs) : xs.diff ys = xs := by
  induction ys with
  | nil => rfl
  | cons y ys ih =>
      rw [List.diff_cons, List.erase_of_not_mem (h y (List.mem_cons_self ..))]
      exact ih fun f hf => h f (List.mem_cons_of_mem _ hf)

theorem diff_self (xs : List FiberId) : xs.diff xs = [] := by
  induction xs with
  | nil => rfl
  | cons x xs ih => rw [List.diff_cons, List.erase_cons_head, ih]

theorem Queued.wakeAll (h : Queued s) (hf : ∀ f ∈ s.queues q, ∀ q', q' ≠ q → f ∉ s.queues q') (o : Outcome) :
    Queued (s.wakeAll q o) := by
  intro q'
  have hlog : (s.wakeAll q o).log = s.log ++ (s.queues q).map .post := rfl
  rw [State.line_append hlog, foldl_waits_post, ← h q']
  change Function.update s.queues q [] q' = _
  by_cases hq : q' = q
  · subst hq
    rw [Function.update_self, diff_self]
  · rw [Function.update_of_ne hq, diff_of_disjoint fun f hmem => hf f hmem q' hq]

/-! Where the fibers are not. -/

theorem Coherent.elsewhere (h : Coherent s) {l : Place} (hf : f ∈ s.at l) (hl : l ≠ .queue q) : f ∉ s.queues q := by
  intro hmem
  obtain ⟨-, -, -, hhome⟩ := (h f).of_mem (l := .queue q) nofun hmem
  have hzero := hhome l
  rw [if_neg (by simpa using hl.symm)] at hzero
  exact absurd (List.count_pos_iff.mpr hf) (by omega)

theorem Coherent.other_queue (h : Coherent s) (hf : f ∈ s.queues q) (q' : Queue) (hq : q' ≠ q) : f ∉ s.queues q' :=
  h.elsewhere (l := .queue q) hf (by simpa using hq.symm)

theorem Coherent.not_queued (h : Coherent s) (hf : ∀ w, (s.fibers f).phase ≠ .suspended w) (q : Queue) :
    f ∉ s.queues q :=
  ((h f).home_none hf).not_mem (.queue q)

theorem Coherent.head_unique (h : Coherent s) {rest : List FiberId} (hq : s.queues q = f :: rest) (q' : Queue)
    (hne : q' ≠ q) : f ∉ s.queues q' :=
  h.other_queue (hq ▸ List.mem_cons_self ..) q' hne

/-! Every action keeps the order. -/

theorem queued_interrupterCall (hc : Coherent s) (h : Queued s) {i : Interrupter}
    (hi : ∀ q, i = .queue q → g ∈ s.queues q → ∀ q', q' ≠ q → g ∉ s.queues q')
    (hj : ∀ k, i = .join k → g ∈ s.at (.joiner k)) (hs : s.interrupterCall g i = .ok s') : Queued s' := by
  cases i with
  | none => cases hs; exact h
  | queue q =>
      simp only [State.interrupterCall] at hs
      split at hs <;> cases hs
      · rename_i hmem
        exact h.take (hi q rfl hmem) _ _
      · exact h
  | join k =>
      cases hs
      have hout : ∀ q, g ∉ s.queues q := fun q => hc.elsewhere (hj k rfl) (by simp)
      exact h.post hout (.outcome .interrupted) false
  | signal | pipe o | send => cases hs; simpa using h
  | receive =>
      simp only [State.interrupterCall] at hs
      split at hs <;> cases hs
      rename_i r hr
      have hout : ∀ q, r ∉ s.queues q := fun q => hc.elsewhere (l := .receive) (by simp [State.at, hr]) (by simp)
      exact Queued.post (s := s.setReceiver none) h hout _ _

theorem queued_condUnlock (hc : Coherent s) (h : Queued s) (f : FiberId) (m : Nat) : Queued (s.condUnlock f m) := by
  unfold State.condUnlock
  split
  · exact h
  · rename_i next rest hq
    rw [queued_record fun _ _ => rfl, queued_setHolders]
    exact h.head hq (hc.head_unique hq) _ _

theorem queued_call {a : Action} (hc : Coherent s) (h : Queued s) (hf : s.current = some f)
    (hs : call s f a = .ok s') : Queued s' := by
  have hrefuse : Queued (s.record (.refuse f)) := (queued_record fun _ _ => rfl).mpr h
  have hrun := (hc f).running.mpr hf
  have hout : ∀ q, f ∉ s.queues q := hc.not_queued (by simp [hrun])
  cases a with
  | mutexLock m | mutexTryLock m | recursiveMutexLock m | recursiveMutexTryLock m =>
      cases hs
      simp only [State.mutexLock, State.mutexTryLock, State.recursiveMutexLock, State.recursiveMutexTryLock]
      repeat' split
      all_goals first | exact h | exact h.enqueue _ _ _
  | mutexUnlock m =>
      cases hs
      by_cases hlocked : s.locked m = false
      · rw [State.mutexUnlock, if_pos hlocked]
        exact h
      · rw [State.mutexUnlock, if_neg hlocked]
        exact queued_condUnlock hc h f m
  | recursiveMutexUnlock m =>
      cases hs
      unfold State.recursiveMutexUnlock
      repeat' split
      · exact h
      · exact h
      · exact h
      · rename_i next rest hq
        exact Queued.head (s := s.setOwner m (some next) 1) h hq (hc.head_unique hq) _ _
  | condWait c m =>
      cases hs
      unfold State.condWait
      repeat' split
      · exact h
      · exact hrefuse
      · rw [condUnlock_setQueue]
        have hunlock := (queued_condUnlock hc h f m).enqueue f (.cond c) (.queue (.cond c))
        rwa [State.enqueue, condUnlock_queues] at hunlock
  | condNotifyOne c =>
      cases hs
      unfold State.condNotifyOne
      split
      · exact h
      · rename_i next rest hq
        exact h.head hq (hc.head_unique hq) _ _
  | condNotifyAll c =>
      cases hs
      exact h.wakeAll (fun g hg => hc.other_queue hg) _
  | futureGet p =>
      cases hs
      unfold State.futureGet
      split
      · exact hrefuse
      · split
        · exact (queued_record fun _ _ => rfl).mpr h
        · exact (queued_record fun _ _ => rfl).mpr h
        · exact (queued_record fun _ _ => rfl).mpr h
        · exact h.enqueue _ _ _
  | promiseSetValue p ref | promiseSetError p ref =>
      simp only [call] at hs
      split at hs <;> cases hs
      simp only [State.promiseSetValue, State.promiseSetError]
      split
      · exact h
      · refine (queued_record fun _ _ => rfl).mpr (Queued.wakeAll ?_ ?_ _)
        · exact h
        · exact fun g hg => hc.other_queue hg
  | promiseGc p =>
      simp only [call] at hs
      split at hs <;> cases hs
      refine (queued_record fun _ _ => rfl).mpr (Queued.wakeAll ?_ ?_ _)
      · exact h
      · exact fun g hg => hc.other_queue hg
  | spawn =>
      cases hs
      obtain ⟨ok, hok⟩ := (hc s.fiberCount).fresh le_rfl
      exact Queued.post (s := s.addFiber .spawned) h (hc.not_queued (by simp [hok])) _ _
  | importModule =>
      simp only [call] at hs
      split at hs <;> cases hs
      obtain ⟨ok, hok⟩ := (hc s.fiberCount).fresh le_rfl
      rw [State.importModule, queued_suspend (by simp)]
      exact Queued.post (s := s.addFiber (.module f)) h (hc.not_queued (by simp [hok])) _ _
  | fiberJoin g =>
      simp only [call] at hs
      split at hs <;> cases hs
      unfold State.fiberJoin
      repeat' split
      · exact hrefuse
      · exact h
      · exact h
      · rw [queued_suspend (by simp)]
        exact h
      · exact (queued_record fun _ _ => rfl).mpr h
  | fiberDetach g =>
      simp only [call] at hs
      split at hs <;> cases hs
      have hdrop : Queued ((s.setHandle g fun x => { x with attached := false }).record (.detached g)) :=
        (queued_record fun _ _ => rfl).mpr h
      unfold State.fiberDetach
      repeat' split
      · exact h
      · exact hdrop
      · exact hdrop
  | fiberGc g =>
      simp only [call] at hs
      split at hs <;> cases hs
      have hdrop : Queued ((s.setHandle g fun x => { x with attached := false, collected := true }).record
          (.collectHandle g)) := (queued_record fun _ _ => rfl).mpr h
      unfold State.fiberGc
      repeat' split
      all_goals exact hdrop
  | fiberInterrupt g =>
      simp only [call] at hs
      split at hs
      · rcases fiberInterrupt_cases hs with ⟨-, rfl⟩ | ⟨-, -, rfl⟩ | ⟨-, -, t, ht, rfl⟩
        · exact h
        · exact queued_mark.mpr h
        · have hcall := queued_interrupterCall (hc.mark g) (queued_mark.mpr h) (fun q _ hmem => hc.other_queue hmem)
            (fun k hk => ((hc.mark g) g).joining k (by simpa [State.mark_fibers] using hk)) ht
          exact hcall
      · cases hs
  | finish ok =>
      rcases fiberEpilogue_cases hs with ⟨-, -, -, rfl⟩ | ⟨-, -, rfl⟩ | ⟨-, rfl⟩ | ⟨g, w, -, -, rfl⟩
      · exact h
      · exact h
      · exact h
      · simpa using h
  | thisFiberYield =>
      cases hs
      unfold State.thisFiberYield
      split
      · exact hrefuse
      · rw [queued_suspend (by simp)]
        exact h.post hout _ _
  | sleepFor | steadyTimerWait o | streamReadSome o | pipeReadSome o | chanSend =>
      cases hs
      simp only [State.sleepFor, State.steadyTimerWait, State.streamReadSome, State.pipeReadSome, State.startOp,
        State.chanSend]
      split
      · exact hrefuse
      · rw [queued_suspend (by simp)]
        exact h
  | cancel o => cases hs; exact h
  | chanReceive queued =>
      cases hs
      unfold State.chanReceive
      split
      · exact hrefuse
      · split
        · exact h
        · rw [queued_suspend (by simp)]
          exact h
  | inboxClose =>
      cases hs
      unfold State.inboxClose
      split
      · exact h
      · split
        · exact h
        · rename_i r hr
          have hr' : ∀ q, r ∉ s.queues q := fun q => hc.elsewhere (l := .receive) (by simp [State.at, hr]) (by simp)
          have hpost := Queued.post (s := s.setReceiver none) h hr' (.outcome .channelClosed) false
          exact hpost
  | disableInterruption | restoreInterruption => cases hs; exact h
  | runHandler | complete _ _ | deliver _ | answer _ _ => cases hs

theorem exec_queued {a : Action} (hc : Coherent s) (h : Queued s) (hs : exec s a = .ok s') : Queued s' := by
  obtain ⟨-, ⟨f, hcur, hcall⟩ | ⟨i, ec, -, hs⟩ | ⟨i, o, -, hs⟩ | ⟨p, ps, -, -, -, hs⟩ | ⟨o, -, -, hs⟩⟩ := exec_cases hs
  · exact queued_call hc h hcur hcall
  · obtain ⟨x, hx, -, rfl⟩ := complete_cases hs
    have hmem : x.fiber ∈ s.at .io := List.mem_map.mpr ⟨x, List.mem_of_getElem? hx, rfl⟩
    exact Queued.post (s := s.setOps _) h (fun q => hc.elsewhere hmem nofun) (.io ec x.fast) false
  · obtain ⟨x, hx, -, rfl⟩ := answer_cases hs
    have hmem : x.1 ∈ s.at .send := List.mem_map.mpr ⟨x, List.mem_of_getElem? hx, rfl⟩
    exact Queued.post (s := s.setSends _) h (fun q => hc.elsewhere hmem nofun) (.outcome o) false
  · obtain ⟨w, -, rfl⟩ := fiberResume_cases hs
    exact queued_run _ _ |>.mpr h
  · obtain ⟨r, w, -, -, -, rfl⟩ := deliver_cases hs
    exact queued_run _ _ |>.mpr h

theorem queued_initial : Queued State.initial := fun _ => rfl

theorem reachable_queued (hs : Reachable Initial Step s) : Sound s ∧ Queued s := by
  refine hs.invariant (I := fun s => Sound s ∧ Queued s) ?_ ?_
  · intro s hs
    rw [hs]
    exact ⟨sound_initial, queued_initial⟩
  · rintro s a s' ⟨hsound, hqueued⟩ hstep
    exact ⟨step_sound hsound hstep, exec_queued hsound.coherent hqueued hstep⟩

/-! What an action leaves alone. -/

/-- The wait lists that an action may change. -/
def Action.touches (a : Action) (q : Queue) : Bool :=
  match a with
  | .mutexLock m | .mutexUnlock m => q = .mutex m
  | .recursiveMutexLock m | .recursiveMutexUnlock m => q = .recursiveMutex m
  | .condWait c m => q = .cond c || q = .mutex m
  | .condNotifyOne c | .condNotifyAll c => q = .cond c
  | .futureGet p | .promiseSetValue p _ | .promiseSetError p _ | .promiseGc p => q = .future p
  | .fiberInterrupt _ => !(Wait.queue q).silent
  | _ => false

theorem State.queues_setQueue_ne {q' : Queue} (hq : q ≠ q') (xs : List FiberId) :
    (s.setQueue q' xs).queues q = s.queues q := Function.update_of_ne hq ..

theorem queues_condUnlock (hq : q ≠ .mutex m) : (s.condUnlock f m).queues q = s.queues q := by
  unfold State.condUnlock
  split
  · rfl
  · exact State.queues_setQueue_ne hq _

theorem queues_interrupterCall {i : Interrupter} (hi : i ≠ .queue q) (hs : s.interrupterCall g i = .ok s') :
    s'.queues q = s.queues q := by
  cases i with
  | none => cases hs; rfl
  | queue q' =>
      simp only [State.interrupterCall] at hs
      split at hs <;> cases hs
      · exact State.queues_setQueue_ne (by simpa using hi.symm) _
      · rfl
  | join k | signal | pipe o | send => cases hs; rfl
  | receive =>
      simp only [State.interrupterCall] at hs
      split at hs <;> cases hs
      rfl

theorem call_queues {a : Action} (hc : Coherent s) (ha : a.touches q = false) (hs : call s f a = .ok s') :
    s'.queues q = s.queues q := by
  cases a with
  | mutexLock m | recursiveMutexLock m =>
      cases hs
      have hq := of_decide_eq_false ha
      simp only [State.mutexLock, State.recursiveMutexLock]
      repeat' split
      all_goals first | rfl | exact State.queues_setQueue_ne hq _
  | mutexTryLock m | recursiveMutexTryLock m =>
      cases hs
      simp only [State.mutexTryLock, State.recursiveMutexTryLock]
      repeat' split
      all_goals rfl
  | mutexUnlock m =>
      cases hs
      by_cases hlocked : s.locked m = false
      · rw [State.mutexUnlock, if_pos hlocked]
      · rw [State.mutexUnlock, if_neg hlocked]
        exact queues_condUnlock (of_decide_eq_false ha)
  | recursiveMutexUnlock m =>
      cases hs
      have hq := of_decide_eq_false ha
      unfold State.recursiveMutexUnlock
      repeat' split
      all_goals first | rfl | exact State.queues_setQueue_ne hq _
  | condWait c m =>
      cases hs
      simp only [Action.touches, Bool.or_eq_false_iff, decide_eq_false_iff_not] at ha
      unfold State.condWait
      repeat' split
      · rfl
      · rfl
      · exact (queues_condUnlock ha.2).trans (State.queues_setQueue_ne ha.1 _)
  | condNotifyOne c =>
      cases hs
      unfold State.condNotifyOne
      split
      · rfl
      · exact State.queues_setQueue_ne (of_decide_eq_false ha) _
  | condNotifyAll c =>
      cases hs
      exact State.queues_setQueue_ne (of_decide_eq_false ha) _
  | futureGet p =>
      cases hs
      have hq := of_decide_eq_false ha
      unfold State.futureGet
      repeat' split
      all_goals first | rfl | exact State.queues_setQueue_ne hq _
  | promiseSetValue p ref | promiseSetError p ref =>
      simp only [call] at hs
      split at hs <;> cases hs
      have hq := of_decide_eq_false ha
      simp only [State.promiseSetValue, State.promiseSetError]
      split
      · rfl
      · exact State.queues_setQueue_ne hq _
  | promiseGc p =>
      simp only [call] at hs
      split at hs <;> cases hs
      exact State.queues_setQueue_ne (of_decide_eq_false ha) _
  | spawn => cases hs; rfl
  | importModule =>
      simp only [call] at hs
      split at hs <;> cases hs
      rfl
  | fiberJoin g =>
      simp only [call] at hs
      split at hs <;> cases hs
      unfold State.fiberJoin
      repeat' split
      all_goals rfl
  | fiberDetach g =>
      simp only [call] at hs
      split at hs <;> cases hs
      unfold State.fiberDetach
      repeat' split
      all_goals rfl
  | fiberGc g =>
      simp only [call] at hs
      split at hs <;> cases hs
      unfold State.fiberGc
      repeat' split
      all_goals rfl
  | fiberInterrupt g =>
      simp only [call] at hs
      split at hs
      · rcases fiberInterrupt_cases hs with ⟨-, rfl⟩ | ⟨-, -, rfl⟩ | ⟨-, -, t, ht, rfl⟩
        · rfl
        · rfl
        · change t.queues q = (s.mark g).queues q
          refine queues_interrupterCall (fun hq => ?_) ht
          -- no interrupter is set for a list of the silent calls
          obtain ⟨-, w, -, hfits⟩ := (hc g).armed (by rw [hq]; exact (by simp))
          rw [hq] at hfits
          cases w with
          | queue q' =>
              simp only [Interrupter.fits, Bool.and_eq_true, decide_eq_true_eq] at hfits
              obtain ⟨rfl, hloud⟩ := hfits
              rw [Action.touches, hloud] at ha
              cases ha
          | _ => cases hfits
      · cases hs
  | finish ok =>
      rcases fiberEpilogue_cases hs with ⟨-, -, -, rfl⟩ | ⟨-, -, rfl⟩ | ⟨-, rfl⟩ | ⟨g, w, -, -, rfl⟩
      · rfl
      · rfl
      · rfl
      · change ((s.stop f ok).release f ok).queues q = _
        unfold State.release
        simp only
        split <;> rfl
  | thisFiberYield | sleepFor | steadyTimerWait o | streamReadSome o | pipeReadSome o | chanSend =>
      cases hs
      simp only [State.thisFiberYield, State.sleepFor, State.steadyTimerWait, State.streamReadSome,
        State.pipeReadSome, State.startOp, State.chanSend]
      split <;> rfl
  | cancel o | disableInterruption | restoreInterruption => cases hs; rfl
  | chanReceive queued =>
      cases hs
      unfold State.chanReceive
      repeat' split
      all_goals rfl
  | inboxClose =>
      cases hs
      unfold State.inboxClose
      repeat' split
      all_goals rfl
  | runHandler | complete _ _ | deliver _ | answer _ _ => cases hs

theorem exec_queues {a : Action} (hc : Coherent s) (ha : a.touches q = false) (hs : exec s a = .ok s') :
    s'.queues q = s.queues q := by
  obtain ⟨-, ⟨f, -, hcall⟩ | ⟨i, ec, -, hs⟩ | ⟨i, o, -, hs⟩ | ⟨p, ps, -, -, -, hs⟩ | ⟨o, -, -, hs⟩⟩ := exec_cases hs
  · exact call_queues hc ha hcall
  · obtain ⟨x, -, -, rfl⟩ := complete_cases hs
    rfl
  · obtain ⟨x, -, -, rfl⟩ := answer_cases hs
    rfl
  · obtain ⟨w, -, rfl⟩ := fiberResume_cases hs
    rfl
  · obtain ⟨r, w, -, -, -, rfl⟩ := deliver_cases hs
    rfl

/-- The operations on mutexes. -/
def Action.locks : Action → Bool
  | .mutexLock _ | .mutexTryLock _ | .mutexUnlock _ | .condWait _ _ | .recursiveMutexLock _
  | .recursiveMutexTryLock _ | .recursiveMutexUnlock _ => true
  | _ => false

/-- Who has the mutexes. -/
def State.held (s : State) : (Nat → Bool) × (Nat → List FiberId) × (Nat → Option FiberId) × (Nat → Nat) :=
  (s.locked, s.holders, s.owner, s.nlocked)

theorem call_held {a : Action} (ha : a.locks = false) (hs : call s f a = .ok s') : s'.held = s.held := by
  cases a with
  | mutexLock m | mutexTryLock m | mutexUnlock m | condWait c m | recursiveMutexLock m | recursiveMutexTryLock m
  | recursiveMutexUnlock m => cases ha
  | condNotifyOne c =>
      cases hs
      unfold State.condNotifyOne
      split <;> rfl
  | condNotifyAll c | spawn | cancel o | disableInterruption | restoreInterruption => cases hs; rfl
  | futureGet p =>
      cases hs
      unfold State.futureGet
      repeat' split
      all_goals rfl
  | promiseSetValue p ref | promiseSetError p ref =>
      simp only [call] at hs
      split at hs <;> cases hs
      simp only [State.promiseSetValue, State.promiseSetError]
      split <;> rfl
  | promiseGc p | importModule =>
      simp only [call] at hs
      split at hs <;> cases hs
      rfl
  | fiberJoin g | fiberDetach g | fiberGc g =>
      simp only [call] at hs
      split at hs <;> cases hs
      simp only [State.fiberJoin, State.fiberDetach, State.fiberGc]
      repeat' split
      all_goals rfl
  | fiberInterrupt g =>
      simp only [call] at hs
      split at hs
      · rcases fiberInterrupt_cases hs with ⟨-, rfl⟩ | ⟨-, -, rfl⟩ | ⟨-, -, t, ht, rfl⟩
        · rfl
        · rfl
        · change t.held = (s.mark g).held
          unfold State.interrupterCall at ht
          repeat' split at ht
          all_goals cases ht <;> rfl
      · cases hs
  | finish ok =>
      rcases fiberEpilogue_cases hs with ⟨-, -, -, rfl⟩ | ⟨-, -, rfl⟩ | ⟨-, rfl⟩ | ⟨g, w, -, -, rfl⟩
      · rfl
      · rfl
      · rfl
      · change ((s.stop f ok).release f ok).held = _
        unfold State.release
        simp only
        split <;> rfl
  | thisFiberYield | sleepFor | steadyTimerWait o | streamReadSome o | pipeReadSome o | chanSend | chanReceive queued
  | inboxClose =>
      cases hs
      simp only [State.thisFiberYield, State.sleepFor, State.steadyTimerWait, State.streamReadSome,
        State.pipeReadSome, State.startOp, State.chanSend, State.chanReceive, State.inboxClose]
      repeat' split
      all_goals rfl
  | runHandler | complete _ _ | deliver _ | answer _ _ => cases hs

theorem exec_held {a : Action} (ha : a.locks = false) (hs : exec s a = .ok s') : s'.held = s.held := by
  obtain ⟨-, ⟨f, -, hcall⟩ | ⟨i, ec, -, hs⟩ | ⟨i, o, -, hs⟩ | ⟨p, ps, -, -, -, hs⟩ | ⟨o, -, -, hs⟩⟩ := exec_cases hs
  · exact call_held ha hcall
  · obtain ⟨x, -, -, rfl⟩ := complete_cases hs
    rfl
  · obtain ⟨x, -, -, rfl⟩ := answer_cases hs
    rfl
  · obtain ⟨w, -, rfl⟩ := fiberResume_cases hs
    rfl
  · obtain ⟨r, w, -, -, -, rfl⟩ := deliver_cases hs
    rfl

end

end Emilua.Sched
