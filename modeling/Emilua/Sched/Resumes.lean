import Emilua.Sched.Wakeups

/-!
Resumes are counted along the run: between two runs of a fiber at most one is
posted, and while it is suspended with none posted the fiber is in the wait
list of its call.
-/
namespace Emilua.Sched
open Transition

/-- The number of resumes of `f` that have been posted since it last ran. -/
def Event.tally (f : FiberId) (n : Nat) : Event → Nat
  | .post g => if g = f then n + 1 else n
  | .resume g _ _ => if g = f then 0 else n
  | _ => n

def State.posts (s : State) (f : FiberId) : Nat := s.log.foldl (Event.tally f) 0

/-- All of these are on the strand. -/
def Tallied (s : State) : Prop := ∀ f, s.posts f = (s.at .strand).count f

section
variable {s s' : State} {f g : FiberId} {w : Wait}

theorem State.posts_append {l : List Event} (hlog : s'.log = s.log ++ l) (f : FiberId) :
    s'.posts f = l.foldl (Event.tally f) (s.posts f) := by
  rw [State.posts, hlog, List.foldl_append]
  rfl

@[simp] theorem tallied_setFiber (k : Fiber → Fiber) : Tallied (s.setFiber f k) ↔ Tallied s := Iff.rfl

@[simp] theorem tallied_setHandle (k : Handle → Handle) : Tallied (s.setHandle f k) ↔ Tallied s := Iff.rfl

@[simp] theorem tallied_setQueue (q : Queue) (xs : List FiberId) : Tallied (s.setQueue q xs) ↔ Tallied s := Iff.rfl

@[simp] theorem tallied_setHolders (m : Nat) (xs : List FiberId) : Tallied (s.setHolders m xs) ↔ Tallied s := Iff.rfl

@[simp] theorem tallied_setLocked (m : Nat) (b : Bool) : Tallied (s.setLocked m b) ↔ Tallied s := Iff.rfl

@[simp] theorem tallied_setOwner (m : Nat) (o : Option FiberId) (n : Nat) :
    Tallied (s.setOwner m o n) ↔ Tallied s := Iff.rfl

@[simp] theorem tallied_setFuture (p : Nat) (x : FutureState) : Tallied (s.setFuture p x) ↔ Tallied s := Iff.rfl

@[simp] theorem tallied_setOps (ops : List Op) : Tallied (s.setOps ops) ↔ Tallied s := Iff.rfl

@[simp] theorem tallied_setSends (sends : List (FiberId × Bool)) : Tallied (s.setSends sends) ↔ Tallied s := Iff.rfl

@[simp] theorem tallied_setReceiver (r : Option FiberId) : Tallied (s.setReceiver r) ↔ Tallied s := Iff.rfl

@[simp] theorem tallied_unlist : Tallied (s.unlist f) ↔ Tallied s := Iff.rfl

@[simp] theorem tallied_stop (ok : Bool) : Tallied (s.stop f ok) ↔ Tallied s := Iff.rfl

@[simp] theorem tallied_addFiber (x : Fiber) : Tallied (s.addFiber x) ↔ Tallied s := Iff.rfl

theorem tallied_record {e : Event} (he : ∀ f n, e.tally f n = n) : Tallied (s.record e) ↔ Tallied s := by
  refine forall_congr' fun f => ?_
  rw [State.posts_append (show (s.record e).log = s.log ++ [e] from rfl), List.foldl_cons, List.foldl_nil, he]
  rfl

@[simp] theorem tallied_suspend (i : Interrupter) : Tallied (s.suspend f w i) ↔ Tallied s :=
  tallied_record (e := .suspend f w (s.fibers f).disabled.on) fun _ _ => rfl

@[simp] theorem tallied_mark : Tallied (s.mark f) ↔ Tallied s :=
  tallied_record (e := .interrupt f) fun _ _ => rfl

@[simp] theorem tallied_enqueue (q : Queue) (i : Interrupter) : Tallied (s.enqueue f q i) ↔ Tallied s :=
  tallied_suspend i

@[simp] theorem tallied_release (ok : Bool) : Tallied (s.release f ok) ↔ Tallied s := by
  unfold State.release
  simp only
  split
  all_goals exact tallied_record (e := .joined f) fun _ _ => rfl

theorem tally_map_post (f : FiberId) (xs : List FiberId) (n : Nat) :
    (xs.map Event.post).foldl (Event.tally f) n = n + xs.count f := by
  induction xs generalizing n with
  | nil => rfl
  | cons x xs ih =>
      rw [List.map_cons, List.foldl_cons, ih, List.count_cons]
      by_cases hx : x = f
      · simp only [Event.tally, hx, beq_self_eq_true, if_true]
        omega
      · simp [Event.tally, hx]

@[simp] theorem tallied_wakeAll (q : Queue) (o : Outcome) : Tallied (s.wakeAll q o) ↔ Tallied s := by
  refine forall_congr' fun f => ?_
  rw [State.posts_append (show (s.wakeAll q o).log = s.log ++ (s.queues q).map .post from rfl), tally_map_post, State.at_wakeAll, if_pos rfl, List.count_append]
  omega

@[simp] theorem tallied_post (a : Args) (k : Bool) : Tallied (s.post f a k) ↔ Tallied s := by
  refine forall_congr' fun g => ?_
  have hposts := State.posts_append (show (s.post f a k).log = s.log ++ [f].map .post from rfl) g
  rw [hposts, tally_map_post, State.at_post, if_pos rfl, List.count_append]
  omega

theorem tallied_run (h : Tallied s) (hf : f ∉ s.at .strand) (o : Outcome) (k : Bool) :
    Tallied (s.run f w o k) := by
  intro g
  rw [State.posts_append (s := s) (l := [.resume f w o]) rfl]
  simp only [List.foldl_cons, List.foldl_nil, Event.tally]
  split
  · rename_i hg
    subst hg
    exact (List.count_eq_zero.mpr hf).symm
  · exact h g

theorem tallied_interrupterCall {i : Interrupter} (h : Tallied s) (hs : s.interrupterCall g i = .ok s') :
    Tallied s' := by
  cases i with
  | none => cases hs; exact h
  | queue q =>
      simp only [State.interrupterCall] at hs
      split at hs <;> cases hs
      · simpa using h
      · exact h
  | join h' | signal | pipe o | send => cases hs; simpa using h
  | receive =>
      simp only [State.interrupterCall] at hs
      split at hs <;> cases hs
      simpa using h

theorem tallied_call {a : Action} (hc : Coherent s) (h : Tallied s) (hf : s.current = some f)
    (hs : call s f a = .ok s') : Tallied s' := by
  have hrefuse : Tallied (s.record (.refuse f)) := (tallied_record fun _ _ => rfl).mpr h
  cases a with
  | mutexLock m | mutexTryLock m | recursiveMutexLock m | recursiveMutexTryLock m | recursiveMutexUnlock m
  | condNotifyOne c | condNotifyAll c | spawn =>
      cases hs
      simp only [State.mutexLock, State.mutexTryLock, State.recursiveMutexLock, State.recursiveMutexTryLock,
        State.recursiveMutexUnlock, State.condNotifyOne, State.condNotifyAll, State.spawn]
      repeat' split
      all_goals simpa using h
  | mutexUnlock m =>
      cases hs
      unfold State.mutexUnlock
      repeat' split
      · exact h
      · exact h
      · refine (tallied_record fun _ _ => rfl).mpr ?_
        simpa using h
  | condWait c m =>
      cases hs
      unfold State.condWait State.condUnlock
      repeat' split
      · exact h
      · exact hrefuse
      · simpa using h
      · rw [tallied_suspend, tallied_record fun _ _ => rfl]
        simpa using h
  | futureGet p =>
      cases hs
      unfold State.futureGet
      split
      · exact hrefuse
      · split
        · exact (tallied_record fun _ _ => rfl).mpr h
        · exact (tallied_record fun _ _ => rfl).mpr h
        · exact (tallied_record fun _ _ => rfl).mpr h
        · simpa using h
  | promiseSetValue p ref =>
      simp only [call] at hs
      split at hs <;> cases hs
      unfold State.promiseSetValue
      split
      · exact h
      · refine (tallied_record fun _ _ => rfl).mpr ?_
        simpa using h
  | promiseSetError p ref =>
      simp only [call] at hs
      split at hs <;> cases hs
      unfold State.promiseSetError
      split
      · exact h
      · refine (tallied_record fun _ _ => rfl).mpr ?_
        simpa using h
  | promiseGc p =>
      simp only [call] at hs
      split at hs <;> cases hs
      refine (tallied_record fun _ _ => rfl).mpr ?_
      simp only [tallied_wakeAll, tallied_setFuture]
      exact h
  | importModule =>
      simp only [call] at hs
      split at hs <;> cases hs
      unfold State.importModule
      simpa using h
  | fiberJoin g =>
      simp only [call] at hs
      split at hs <;> cases hs
      unfold State.fiberJoin
      repeat' split
      · exact hrefuse
      · exact h
      · exact h
      · simpa using h
      · exact (tallied_record fun _ _ => rfl).mpr h
  | fiberDetach g =>
      simp only [call] at hs
      split at hs <;> cases hs
      unfold State.fiberDetach
      repeat' split
      · exact h
      · exact (tallied_record (s := s.setHandle g fun x => { x with attached := false }) fun _ _ => rfl).mpr h
      · exact (tallied_record (s := s.setHandle g fun x => { x with attached := false }) fun _ _ => rfl).mpr h
  | fiberGc g =>
      simp only [call] at hs
      split at hs <;> cases hs
      have hgc : Tallied ((s.setHandle g fun x => { x with attached := false, collected := true }).record
          (.collectHandle g)) := (tallied_record fun _ _ => rfl).mpr h
      unfold State.fiberGc
      repeat' split
      all_goals exact hgc
  | fiberInterrupt g =>
      simp only [call] at hs
      split at hs
      · rcases fiberInterrupt_cases hs with ⟨-, rfl⟩ | ⟨-, -, rfl⟩ | ⟨-, -, t, ht, rfl⟩
        · exact h
        · exact tallied_mark.mpr h
        · have hcall := tallied_interrupterCall (tallied_mark.mpr h) ht
          exact hcall
      · cases hs
  | finish ok =>
      have hrun := (hc f).running.mpr hf
      rcases fiberEpilogue_cases hs with ⟨-, -, -, rfl⟩ | ⟨-, -, rfl⟩ | ⟨-, rfl⟩ | ⟨g, w, hj, hw, rfl⟩
      · exact h
      · exact h
      · exact h
      · refine tallied_run (by simpa using h) ?_ _ _
        have hmem : g ∈ s.at (.joiner f) := by
          simp [State.at, Fiber.waiter, hrun, hj, Joiner.toList]
        obtain ⟨-, -, -, hhome⟩ := (hc g).of_mem (l := .joiner f) (by simp) hmem
        intro hposted
        have hcount : (((s.stop f ok).release f ok).at .strand).count g = (s.at .strand).count g :=
          ((passes_release _ f ok g).counts .strand).trans (by rw [State.at_stop, if_neg (by simp)])
        rw [hhome .strand, if_neg (by simp)] at hcount
        exact absurd (List.count_pos_iff.mpr hposted) (by omega)
  | thisFiberYield | sleepFor | steadyTimerWait o | streamReadSome o | pipeReadSome o | chanSend =>
      cases hs
      simp only [State.thisFiberYield, State.sleepFor, State.steadyTimerWait, State.streamReadSome,
        State.pipeReadSome, State.startOp, State.chanSend]
      split
      · exact hrefuse
      · simpa using h
  | cancel o => cases hs; exact h
  | chanReceive queued =>
      cases hs
      unfold State.chanReceive
      split
      · exact hrefuse
      · split
        · exact h
        · simpa using h
  | inboxClose =>
      cases hs
      unfold State.inboxClose
      split
      · exact h
      · split
        · exact h
        · rename_i r _
          have hpost := (tallied_post (s := s.setReceiver none) (f := r) (.outcome .channelClosed) false).mpr h
          exact hpost
  | disableInterruption | restoreInterruption => cases hs; exact h
  | runHandler | complete _ _ | deliver _ | answer _ _ => cases hs

theorem exec_tallied {a : Action} (hc : Coherent s) (h : Tallied s) (hs : exec s a = .ok s') : Tallied s' := by
  obtain ⟨-, ⟨f, hcur, hcall⟩ | ⟨i, ec, -, hs⟩ | ⟨i, o, -, hs⟩ | ⟨p, ps, -, hcur, hstrand, hs⟩ | ⟨o, -, hcur, hs⟩⟩ :=
    exec_cases hs
  · exact tallied_call hc h hcur hcall
  · obtain ⟨x, -, -, rfl⟩ := complete_cases hs
    simpa using h
  · obtain ⟨x, -, -, rfl⟩ := answer_cases hs
    simpa using h
  · obtain ⟨w, hw, rfl⟩ := fiberResume_cases hs
    have hmem : p.fiber ∈ s.at .strand := by simp [State.at, hstrand]
    obtain ⟨-, -, hhome⟩ := (hc p.fiber).of_posted hmem
    have hone := hhome .strand
    rw [if_pos rfl, State.at, hstrand, List.map_cons, List.count_cons_self] at hone
    intro g
    rw [State.posts_append (s := s) (l := [.resume p.fiber w (p.args.read (s.fibers p.fiber).interrupted)]) rfl]
    have hg := h g
    rw [State.at, hstrand, List.map_cons, List.count_cons] at hg
    change _ = (ps.map Post.fiber).count g
    simp only [List.foldl_cons, List.foldl_nil, Event.tally]
    by_cases hpg : p.fiber = g
    · subst hpg
      rw [if_pos rfl]
      omega
    · rw [if_neg hpg, hg]
      simp [hpg]
  · obtain ⟨r, w, hr, hw, -, rfl⟩ := deliver_cases hs
    have hmem : r ∈ s.at .receive := by simp [State.at, hr]
    obtain ⟨-, -, -, hhome⟩ := (hc r).of_mem (l := .receive) (by simp) hmem
    refine tallied_run (by simpa using h) (fun hposted => ?_) o false
    have hzero := hhome .strand
    rw [if_neg (by simp)] at hzero
    exact absurd (List.count_pos_iff.mpr hposted) (by
      change ¬ 0 < (s.at .strand).count r
      omega)

/-! Reachable states. -/

structure Sound (s : State) : Prop where
  coherent : Coherent s
  bound : s.valid = true → AllBound s
  tallied : Tallied s

theorem coherent_initial : Coherent State.initial := by
  have hother : ∀ f, f ≠ 0 → ∃ ok, (State.initial.fibers f).phase = .finished ok := by
    intro f hf
    by_cases h1 : f = 1
    · exact ⟨true, by simp [State.initial, h1, Fiber.async, Fiber.off]⟩
    · exact ⟨true, by simp [State.initial, hf, h1, Fiber.off]⟩
  have hwaiter : ∀ g, (State.initial.fibers g).waiter = [] := by
    intro g
    by_cases h0 : g = 0
    · simp [State.initial, h0, Fiber.waiter, Fiber.main, Fiber.off, Joiner.toList]
    · obtain ⟨ok, hok⟩ := hother g h0
      simp [Fiber.waiter, hok]
  have hidle : ∀ g, (State.initial.fibers g).interrupter = .none := by
    intro g
    simp only [State.initial]
    repeat' split
    all_goals rfl
  have hat : ∀ l, State.initial.at l = if l = .strand then [0] else [] := by
    intro l
    cases l with
    | joiner g => exact hwaiter g
    | _ => rfl
  intro f
  by_cases hf : f = 0
  · subst hf
    constructor
    · refine ⟨some .strand, .inl rfl, fun l => ?_⟩
      rw [hat]
      by_cases hl : l = .strand
      · simp [hl]
      · simp [hl, Ne.symm hl]
    · exact ⟨fun h => (by cases h), fun h => (by cases h)⟩
    · exact fun hno => absurd (hidle 0) hno
    · rw [hidle]
      simp
    · intro p hp _ _ w hw
      cases hw
      rfl
    · exact fun hle => absurd hle (by decide)
  · obtain ⟨ok, hok⟩ := hother f hf
    constructor
    · refine ⟨none, by rw [hok]; rfl, fun l => ?_⟩
      rw [hat]
      by_cases hl : l = .strand <;> simp [hl, Ne.symm hf]
    · rw [hok]
      exact ⟨fun h => (by cases h), fun h => (by cases h)⟩
    · exact fun hno => absurd (hidle f) hno
    · rw [hidle]
      simp
    · intro p _ _ _ w hw
      rw [hok] at hw
      cases hw
    · exact fun _ => ⟨ok, hok⟩

theorem sound_initial : Sound State.initial where
  coherent := coherent_initial
  bound _ g hg hkind := by
    have hg' : g = 0 ∨ g = 1 := by
      have hlt : g < 2 := hg
      omega
    rcases hg' with rfl | rfl <;> cases hkind
  tallied f := by
    by_cases hf : f = 0
    · subst hf
      rfl
    · simp [State.posts, State.initial, State.at, Event.tally, Ne.symm hf]

theorem step_sound {a : Action} (h : Sound s) (hs : Step s a s') : Sound s' where
  coherent := exec_coherent h.coherent (h.bound (exec_cases hs).1) hs
  bound := exec_bound h.coherent (h.bound (exec_cases hs).1) hs
  tallied := exec_tallied h.coherent h.tallied hs

theorem reachable_sound (hs : Reachable Initial Step s) : Sound s :=
  hs.invariant (fun s hs => by rw [hs]; exact sound_initial) fun _ _ _ => step_sound

theorem Sound.posts_le (h : Sound s) (f : FiberId) : s.posts f ≤ 1 := by
  obtain ⟨o, -, hhome⟩ := (h.coherent f).placed
  rw [h.tallied f, hhome .strand]
  split <;> omega

theorem Sound.posts_eq_one (h : Sound s) (hf : f ∈ s.at .strand) : s.posts f = 1 := by
  have hpos := List.count_pos_iff.mpr hf
  have hle := h.posts_le f
  rw [h.tallied f] at hle ⊢
  omega

theorem Sound.mem_strand (h : Sound s) (hf : s.posts f = 1) : f ∈ s.at .strand := by
  rw [h.tallied f] at hf
  exact List.count_pos_iff.mp (by omega)

/-- A fiber with a posted resume is in no wait list. -/
theorem Sound.posted_elsewhere (h : Sound s) (hf : s.posts f = 1) {l : Place} (hl : l ≠ .strand) :
    f ∉ s.at l := by
  obtain ⟨-, -, hhome⟩ := (h.coherent f).of_posted (h.mem_strand hf)
  intro hmem
  have hzero := hhome l
  rw [if_neg (by simpa using Ne.symm hl)] at hzero
  exact absurd (List.count_pos_iff.mpr hmem) (by omega)

/-- A suspended fiber without one is in the wait list of its call. -/
theorem Sound.waiting (h : Sound s) (hw : (s.fibers f).phase = .suspended w) (hf : s.posts f = 0) :
    ∃ l, w.place = some l ∧ f ∈ s.at l := by
  obtain ⟨o, hfits, hhome⟩ := (h.coherent f).placed
  rw [hw] at hfits
  rcases hfits with rfl | ⟨l, hplace, rfl⟩
  · have hone := hhome .strand
    rw [← h.tallied f, hf, if_pos rfl] at hone
    cases hone
  · refine ⟨l, hplace, List.count_pos_iff.mp ?_⟩
    rw [hhome l, if_pos rfl]
    exact Nat.one_pos

/-- The fibers that the running fiber `f` selects for a wake-up. -/
def State.selected (s : State) (f : FiberId) : Action → List FiberId
  | .mutexUnlock m => if s.locked m then (s.queues (.mutex m)).take 1 else []
  | .recursiveMutexUnlock m =>
      if s.owner m = some f ∧ s.nlocked m ≤ 1 then (s.queues (.recursiveMutex m)).take 1 else []
  | .condWait _ m =>
      if s.locked m = true ∧ (s.fibers f).refused = false then (s.queues (.mutex m)).take 1 else []
  | .condNotifyOne c => (s.queues (.cond c)).take 1
  | .condNotifyAll c => s.queues (.cond c)
  | .promiseSetValue p _ | .promiseSetError p _ => if s.futures p = .empty then s.queues (.future p) else []
  | .promiseGc p => s.queues (.future p)
  | .fiberInterrupt g =>
      if (s.handles g).attached = true ∧ g ≠ f then
        match (s.fibers g).interrupter with
        | .queue q => (s.queues q).filter (· = g)
        | .join _ => [g]
        | _ => []
      else []
  | .finish _ => (s.fibers f).waiter
  | _ => []

theorem mem_strand_post (s : State) (f : FiberId) (a : Args) (k : Bool) : f ∈ (s.post f a k).at .strand := by
  rw [State.at_post, if_pos rfl]
  exact List.mem_append_right _ (List.mem_singleton_self f)

theorem mem_strand_wakeAll {q : Queue} (hg : g ∈ s.queues q) (o : Outcome) : g ∈ (s.wakeAll q o).at .strand := by
  rw [State.at_wakeAll, if_pos rfl]
  exact List.mem_append_right _ hg

theorem mem_take_one {xs : List FiberId} (hg : g ∈ xs.take 1) : ∃ rest, xs = g :: rest := by
  cases xs with
  | nil => cases hg
  | cons x rest =>
      have hx : g = x := by simpa using hg
      exact ⟨rest, by rw [hx]⟩

/-- The fibers that are selected are posted; the waiter of a fiber that ends
runs at once. -/
theorem selected_posted {a : Action} (hs : call s f a = .ok s')
    (hg : g ∈ s.selected f a) : g ∈ s'.at .strand ∨ s'.current = some g := by
  cases a with
  | mutexUnlock m =>
      cases hs
      simp only [State.selected] at hg
      split at hg
      · rename_i hlocked
        obtain ⟨rest, hq⟩ := mem_take_one hg
        simp only [State.mutexUnlock, hlocked, hq]
        exact .inl (mem_strand_post _ g _ _)
      · cases hg
  | recursiveMutexUnlock m =>
      cases hs
      simp only [State.selected] at hg
      split at hg
      · rename_i howner
        obtain ⟨rest, hq⟩ := mem_take_one hg
        have hzero : s.nlocked m - 1 = 0 := by omega
        simp only [State.recursiveMutexUnlock, howner.1, hzero, hq]
        rw [if_neg (by simp), if_neg (by simp)]
        exact .inl (mem_strand_post _ g _ _)
      · cases hg
  | condWait c m =>
      cases hs
      simp only [State.selected] at hg
      split at hg
      · rename_i hguard
        obtain ⟨rest, hq⟩ := mem_take_one hg
        have hpost : g ∈ (s.condUnlock f m).at .strand := by
          simp only [State.condUnlock, hq]
          exact mem_strand_post _ g _ _
        simp only [State.condWait, hguard.1, hguard.2, condUnlock_setQueue]
        exact .inl hpost
      · cases hg
  | condNotifyOne c =>
      cases hs
      obtain ⟨rest, hq⟩ := mem_take_one hg
      simp only [State.condNotifyOne, hq]
      exact .inl (mem_strand_post _ g _ _)
  | condNotifyAll c =>
      cases hs
      exact .inl (mem_strand_wakeAll hg _)
  | promiseSetValue p ref =>
      simp only [State.selected] at hg
      split at hg
      · rename_i hempty
        simp only [call] at hs
        split at hs <;> cases hs
        simp only [State.promiseSetValue, hempty]
        exact .inl (mem_strand_wakeAll (s := s.setFuture p (.valueReady ref)) hg _)
      · cases hg
  | promiseSetError p ref =>
      simp only [State.selected] at hg
      split at hg
      · rename_i hempty
        simp only [call] at hs
        split at hs <;> cases hs
        simp only [State.promiseSetError, hempty]
        exact .inl (mem_strand_wakeAll (s := s.setFuture p (.errorReady ref)) hg _)
      · cases hg
  | promiseGc p =>
      simp only [call] at hs
      split at hs <;> cases hs
      exact .inl (mem_strand_wakeAll (s := ({ s with promises := Function.update s.promises p false } : State).setFuture
        p .broken) hg .brokenPromise)
  | fiberInterrupt g' =>
      simp only [State.selected] at hg
      split at hg
      · rename_i hguard
        simp only [call] at hs
        split at hs
        · rcases fiberInterrupt_cases hs with ⟨hno, -⟩ | ⟨-, heq, -⟩ | ⟨-, -, t, ht, rfl⟩
          · exact absurd (hguard.1.symm.trans hno) (by simp)
          · exact absurd heq hguard.2
          · split at hg
            · rename_i q hi
              rw [List.mem_filter] at hg
              have hgg : g = g' := by simpa using hg.2
              subst hgg
              have hmem : g ∈ (s.mark g).queues q := hg.1
              rw [hi] at ht
              simp only [State.interrupterCall, hmem] at ht
              cases ht
              exact .inl (mem_strand_post _ g _ _)
            · rename_i h' hi
              rw [List.mem_singleton] at hg
              subst hg
              rw [hi] at ht
              cases ht
              exact .inl (mem_strand_post _ g _ _)
            · cases hg
        · cases hs
      · cases hg
  | finish ok =>
      obtain ⟨hjoiner, -⟩ := Fiber.mem_waiter hg
      rcases fiberEpilogue_cases hs with ⟨hj, -⟩ | ⟨hj, -⟩ | ⟨hj, -⟩ | ⟨h', w, hj, -, rfl⟩
      · rw [hjoiner] at hj
        cases hj
      · rw [hjoiner] at hj
        cases hj
      · rw [hjoiner] at hj
        cases hj
      · rw [hjoiner] at hj
        cases hj
        exact .inr rfl
  | _ => cases hg

/-- The fiber that waits for one that ends is suspended. -/
theorem finish_ok (h : Coherent s) (hf : s.current = some f) (ok : Bool) : ∃ s', s.fiberEpilogue f ok = .ok s' := by
  have hrun := (h f).running.mpr hf
  rw [fiberEpilogue_eq]
  cases hj : (s.fibers f).joiner with
  | detached =>
      simp only
      split <;> exact ⟨_, rfl⟩
  | nil => exact ⟨_, rfl⟩
  | fiber g =>
      have hmem : g ∈ s.at (.joiner f) := by
        simp [State.at, Fiber.waiter, hrun, hj, Joiner.toList]
      obtain ⟨w, hw, -, -⟩ := (h g).of_mem (l := .joiner f) (by simp) hmem
      have hgf : g ≠ f := by
        rintro rfl
        rw [hrun] at hw
        cases hw
      have hfib : ((s.stop f ok).release f ok).fibers g = s.fibers g := by
        rw [State.release_fibers, Function.update_of_ne hgf, State.stop_fibers, Function.update_of_ne hgf]
      simp only [hfib, hw]
      exact ⟨_, rfl⟩

/-- Fiber 2 waits on a condition variable, is notified and then interrupted. -/
def notifiedAndInterrupted : List Action :=
  [.runHandler, .spawn, .thisFiberYield, .runHandler, .mutexLock 0, .condWait 0 0, .runHandler, .condNotifyOne 0,
    .fiberInterrupt 2]

end

end Emilua.Sched
