import Emilua.Sched.Lifetime

/-!
Every step keeps the fibers where they belong. A fiber that is selected for a
wake-up is taken from its wait list and posted, so that no wake-up is lost and
none is given twice.
-/
namespace Emilua.Sched
open Transition

section
variable {s s' : State} {f g : FiberId} {q : Queue}

theorem Coherent.not_posted (h : Coherent s) (hf : s.current = some f) : ∀ p ∈ s.strand, p.fiber ≠ f := by
  intro p hp hpf
  exact ((h f).home_running hf).not_mem .strand (List.mem_map.mpr ⟨p, hp, hpf⟩)

/-- A running fiber is put in the place of the call it makes. -/
theorem Coherent.block (h : Coherent s) (hf : s.current = some f) {l : Place} {w : Wait} {i : Interrupter}
    (hadd : Adds s s' f l) (hstrand : s'.strand = s.strand) (hplace : w.place = some l) (hi : i.fits w = true)
    (hij : ∀ g, i = .join g → l = .joiner g) : Coherent (s'.suspend f w i) :=
  h.park hf hadd (.inr hplace) hi hij fun p hp hpf => absurd hpf (h.not_posted hf p (hstrand ▸ hp))

theorem Coherent.enqueue (h : Coherent s) (hf : s.current = some f) {i : Interrupter}
    (hi : i.fits (.queue q) = true) : Coherent (s.enqueue f q i) := by
  refine h.block hf (adds_setQueue s f q) rfl rfl hi ?_
  rintro g rfl
  cases hi

/-- The head of a wait list is woken. -/
theorem Coherent.wake_head (h : Coherent s) {rest : List FiberId} (hq : s.queues q = g :: rest) (a : Args)
    (k : Bool) (hk : k = true → (Wait.queue q).silent = true) : Coherent ((s.setQueue q rest).post g a k) := by
  refine h.wake (l := .queue q) nofun ?_ (drops_setQueue (hq ▸ List.Perm.refl _)) nofun a k ?_
  · simp [State.at, hq]
  · intro hk' w hw
    rw [Wait.place_eq_queue hw]
    exact hk hk'

theorem Coherent.record (h : Coherent s) (e : Event) : Coherent (s.record e) := h.of_core rfl

theorem coherent_mutexUnlock (h : Coherent s) (f : FiberId) (m : Nat) : Coherent (s.mutexUnlock f m) := by
  unfold State.mutexUnlock
  split
  · exact h
  · split
    · exact h.of_core rfl
    · rename_i next rest hq
      have hwake := h.wake_head hq (.outcome .done) true fun _ => rfl
      exact hwake.of_core rfl

theorem coherent_condUnlock (h : Coherent s) (f : FiberId) (m : Nat) : Coherent (s.condUnlock f m) := by
  unfold State.condUnlock
  split
  · exact h.of_core rfl
  · rename_i next rest hq
    have hwake := h.wake_head hq (.outcome .done) true fun _ => rfl
    exact hwake.of_core rfl

theorem coherent_recursiveMutexUnlock (h : Coherent s) (f : FiberId) (m : Nat) :
    Coherent (s.recursiveMutexUnlock f m) := by
  unfold State.recursiveMutexUnlock
  split
  · exact h
  · split
    · exact h.of_core rfl
    · split
      · exact h.of_core rfl
      · rename_i next rest hq
        have hwake := h.wake_head hq (.outcome .done) true fun _ => rfl
        exact hwake.of_core rfl

/-- The wait list of the condition variable and the mutex are apart. -/
theorem condUnlock_setQueue (s : State) (f : FiberId) (c m : Nat) (xs : List FiberId) :
    (s.setQueue (.cond c) xs).condUnlock f m = (s.condUnlock f m).setQueue (.cond c) xs := by
  have hq : (s.setQueue (.cond c) xs).queues (.mutex m) = s.queues (.mutex m) := by
    simp [State.setQueue]
  unfold State.condUnlock
  rw [hq]
  cases s.queues (.mutex m) with
  | nil => rfl
  | cons next rest =>
      simp only [State.setQueue, State.post, State.setHolders, State.record]
      rw [Function.update_comm (by simp)]

theorem condUnlock_queues (s : State) (f : FiberId) (c m : Nat) :
    (s.condUnlock f m).queues (.cond c) = s.queues (.cond c) := by
  unfold State.condUnlock
  split
  · rfl
  · simp [State.setQueue, State.post, State.setHolders, State.record]

theorem condUnlock_current (s : State) (f : FiberId) (m : Nat) : (s.condUnlock f m).current = s.current := by
  unfold State.condUnlock
  split <;> rfl

theorem coherent_condWait (h : Coherent s) (hf : s.current = some f) (c m : Nat) :
    Coherent (s.condWait f c m) := by
  unfold State.condWait
  split
  · exact h
  · split
    · exact h.record _
    · rw [condUnlock_setQueue, ← condUnlock_queues s f c m]
      exact (coherent_condUnlock h f m).enqueue ((condUnlock_current s f m).trans hf) (by simp [Interrupter.fits, Wait.silent])

/-! Fibers. -/

theorem Coherent.unlist (h : Coherent s) (g : FiberId) : Coherent (s.unlist g) :=
  h.of_passes (passes_setFiber ⟨rfl, .inr ⟨rfl, rfl⟩⟩ rfl)

theorem Coherent.setHandle (h : Coherent s) (g : FiberId) (k : Handle → Handle) : Coherent (s.setHandle g k) :=
  h.of_core rfl

/-- Nobody waits for the fiber, and its joiner is changed. -/
theorem Coherent.setJoiner (h : Coherent s) {k : Fiber → Fiber}
    (hk : (k (s.fibers g)).Calm (s.fibers g)) (hw : (s.fibers g).waiter = [])
    (hw' : (k (s.fibers g)).waiter = []) : Coherent (s.setFiber g k) :=
  h.of_passes (passes_setFiber hk (hw'.trans hw.symm))

/-- A handle that can be joined leads to a fiber that nobody waits for. -/
theorem waiter_of_bound (hb : (s.life g).Bound) (hidle : (s.handles g).joinInProgress = false) : (s.fibers g).waiter = [] := by
  cases hw : (s.fibers g).waiter with
  | nil => rfl
  | cons x xs =>
      obtain ⟨hjoiner, hlive⟩ := Fiber.mem_waiter (f := x) (x := s.fibers g) (by rw [hw]; exact List.mem_cons_self ..)
      obtain ⟨-, hjip, -⟩ := hb.joined x hjoiner hlive
      exact absurd (hidle.symm.trans hjip) nofun

theorem coherent_fiberJoin (h : Coherent s) (hb : (s.life g).Bound) (hf : s.current = some f) :
    Coherent (s.fiberJoin f g) := by
  unfold State.fiberJoin
  split
  · exact h.record _
  · split
    · exact h
    · rename_i hguard
      push Not at hguard
      simp only [ne_eq, Bool.not_eq_false, Bool.not_eq_true] at hguard
      obtain ⟨hattached, hidle⟩ := hguard
      split
      · exact h
      · split
        · rename_i hlive
          have hended : (s.fibers g).phase.ended = none := (hb.status hattached).symm.trans hlive
          have hadd : Adds s (s.setFiber g fun x => { x with joiner := .fiber f, userHandle := true }) f (.joiner g) := by
            refine adds_joiner ⟨rfl, .inr ⟨rfl, rfl⟩⟩ (waiter_of_bound hb hidle) ?_
            simp only [Fiber.waiter]
            split
            · rename_i hphase
              rw [hphase] at hended
              cases hended
            all_goals rfl
          refine h.block hf (l := .joiner g) ?_ rfl rfl (by simp [Interrupter.fits]) (by simp)
          exact ⟨hadd.calm, hadd.counts, hadd.posts, hadd.current, hadd.count⟩
        · exact ((h.unlist g).setHandle g _).record _

theorem coherent_fiberDetach (h : Coherent s) (hb : (s.life g).Bound) : Coherent (s.fiberDetach g) := by
  unfold State.fiberDetach
  split
  · exact h
  · rename_i hguard
    push Not at hguard
    simp only [ne_eq, Bool.not_eq_false, Bool.not_eq_true] at hguard
    have hs := (h.setHandle g fun x => { x with attached := false }).record (.detached g)
    have hw := waiter_of_bound hb hguard.2
    split
    · refine hs.setJoiner (g := g) ⟨rfl, .inr ⟨rfl, rfl⟩⟩ hw ?_
      simp only [Fiber.waiter]
      split <;> rfl
    · exact hs.unlist g

theorem coherent_fiberGc (h : Coherent s) (hb : (s.life g).Bound)
    (hidle : ¬ ((s.handles g).attached = true ∧ (s.handles g).joinInProgress = true)) :
    Coherent (s.fiberGc g) := by
  have hs := (h.setHandle g fun x => { x with attached := false, collected := true }).record (.collectHandle g)
  unfold State.fiberGc
  split
  · exact hs
  · rename_i hattached
    rw [Bool.not_eq_false] at hattached
    split
    · have hjip : (s.handles g).joinInProgress = false := by
        by_contra hno
        exact hidle ⟨hattached, by simpa using hno⟩
      have hw := waiter_of_bound hb hjip
      refine hs.setJoiner (g := g) ⟨rfl, .inr ⟨rfl, rfl⟩⟩ hw ?_
      simp only [Fiber.waiter]
      split <;> rfl
    · exact hs.unlist g

theorem Coherent.addFiber (h : Coherent s) {x : Fiber} (hphase : x.phase = .suspended .start)
    (hwaiter : x.waiter = []) (hi : x.interrupter = .none) :
    Coherent ((s.addFiber x).post s.fiberCount (.outcome .done) true) := by
  obtain ⟨ok, hok⟩ := (h s.fiberCount).fresh le_rfl
  have hat : ∀ l, (s.addFiber x).at l = s.at l := by
    refine State.at_of_update (f := s.fiberCount) (x := x) ?_ rfl fun l hl => ?_
    · rw [hwaiter]
      simp [Fiber.waiter, hok]
    · cases l with
      | joiner g => exact absurd rfl (hl g)
      | _ => rfl
  have hadd := adds_post (s.addFiber x) s.fiberCount (.outcome .done) true
  have hhome : s.Home s.fiberCount none := (h s.fiberCount).home_none (by simp [hok])
  have hhome' : (s.addFiber x).Home s.fiberCount none := fun l => (congrArg _ (hat l)).trans (hhome l)
  intro g
  by_cases hg : g = s.fiberCount
  · subst hg
    have hfib : ((s.addFiber x).post s.fiberCount (.outcome .done) true).fibers s.fiberCount = x := by
      simp [State.post, State.addFiber]
    have hne : s.current ≠ some s.fiberCount := by
      intro hcur
      have hrun := (h s.fiberCount).running.mpr hcur
      rw [hok] at hrun
      cases hrun
    constructor
    · exact ⟨some .strand, by rw [hfib, hphase]; exact .inl rfl, hhome'.of_adds hadd⟩
    · rw [hfib, hphase]
      exact ⟨(by simp), fun hcur => absurd hcur hne⟩
    · rw [hfib, hi]
      exact fun hno => absurd rfl hno
    · rw [hfib, hi]
      simp
    · intro p hp hpf hskip w hw
      rw [hfib, hphase] at hw
      cases hw
      rfl
    · intro hle
      exact absurd hle (Nat.not_succ_le_self _)
  · refine (h g).of_passes ((?_ : Passes s (s.addFiber x) g).trans (passes_post _ hg _ _))
    refine ⟨?_, fun l => by rw [hat], fun _ hp _ => hp, Iff.rfl, Nat.le_succ _⟩
    have hfib : (s.addFiber x).fibers g = s.fibers g := by
      simp [State.addFiber, hg]
    rw [hfib]
    exact .refl _

theorem coherent_importModule (h : Coherent s) (hf : s.current = some f) : Coherent (s.importModule f) := by
  have hs := h.addFiber (x := { Fiber.module f with joiner := .nil }) rfl rfl rfl
  have heq : (s.addFiber (.module f)).post s.fiberCount (.outcome .done) true =
      ((s.addFiber { Fiber.module f with joiner := .nil }).post s.fiberCount (.outcome .done) true).setFiber
        s.fiberCount fun x => { x with joiner := .fiber f } := by
    simp only [State.addFiber, State.post, State.setFiber, Function.update_idem, Function.update_self]
    rfl
  unfold State.importModule
  rw [heq]
  refine hs.block hf (l := .joiner s.fiberCount) ?_ rfl rfl rfl (by simp)
  refine adds_joiner ⟨rfl, .inr ⟨rfl, rfl⟩⟩ ?_ ?_ <;>
    simp [State.post, State.addFiber, Fiber.waiter, Fiber.module, Joiner.toList]

/-! The end of a fiber. -/

theorem State.at_stop (s : State) (f : FiberId) (ok : Bool) (l : Place) :
    (s.stop f ok).at l = if l = .joiner f then [] else s.at l := by
  have hat := State.at_setFiber_joiner (s := s) (f := f) (k := fun x => { x with phase := .finished ok }) l
  cases l <;> exact hat

theorem settled_stop (h : Coherent s) (hf : s.current = some f) (ok : Bool) : Settled (s.stop f ok) f := by
  have hrun := (h f).running.mpr hf
  have hidle := (h f).not_armed (by simp [hrun])
  have hfib : (s.stop f ok).fibers f = { s.fibers f with phase := .finished ok } := by
    rw [State.stop_fibers, Function.update_self]
  constructor
  · refine ⟨none, by rw [hfib]; rfl, fun l => ?_⟩
    rw [State.at_stop]
    split
    · rfl
    · exact (h f).home_running hf l
  · rw [hfib]
    exact ⟨nofun, nofun⟩
  · rw [hfib]
    exact fun hno => absurd hidle hno
  · rw [hfib, hidle]
    exact nofun
  · intro p _ _ _ w hw
    rw [hfib] at hw
    cases hw
  · rw [hfib]
    exact fun _ => ⟨ok, rfl⟩

theorem passes_stop (hf : s.current = some f) (ok : Bool) (hg : g ≠ f)
    (hw : g ∉ (s.fibers f).waiter) : Passes s (s.stop f ok) g where
  calm := by
    rw [State.stop_fibers, Function.update_of_ne hg]
    exact .refl _
  counts l := by
    rw [State.at_stop]
    split
    · rename_i hl
      subst hl
      exact (List.count_eq_zero.mpr hw).symm
    · rfl
  posts _ hp _ := hp
  current := by simp [State.stop, hf, hg.symm]
  count := le_rfl

theorem coherent_stop (h : Coherent s) (hf : s.current = some f) (ok : Bool) (hw : (s.fibers f).waiter = []) :
    Coherent (s.stop f ok) := by
  intro g
  by_cases hg : g = f
  · subst hg
    exact settled_stop h hf ok
  · exact (h g).of_passes (passes_stop hf ok hg (by simp [hw]))

theorem passes_release (s : State) (f : FiberId) (ok : Bool) (g : FiberId) : Passes s (s.release f ok) g := by
  have hpass : Passes s (s.setFiber f fun x => { x with status := some ok }) g :=
    passes_setFiber ⟨rfl, .inr ⟨rfl, rfl⟩⟩ rfl g
  refine hpass.trans (.of_core ?_ g)
  unfold State.release
  simp only
  split <;> rfl

theorem coherent_finish {ok : Bool} (h : Coherent s) (hf : s.current = some f)
    (hs : s.fiberEpilogue f ok = .ok s') : Coherent s' := by
  have hrun := (h f).running.mpr hf
  have hwaiter : (s.fibers f).waiter = (s.fibers f).joiner.toList := by simp [Fiber.waiter, hrun]
  rcases fiberEpilogue_cases hs with ⟨hj, -, -, rfl⟩ | ⟨hj, -, rfl⟩ | ⟨hj, rfl⟩ | ⟨g, w, hj, hw, rfl⟩
  · have hstop := coherent_stop h hf ok (by rw [hwaiter, hj]; rfl)
    exact hstop.of_core rfl
  · have hstop := coherent_stop h hf ok (by rw [hwaiter, hj]; rfl)
    exact hstop.unlist f
  · have hstop := coherent_stop h hf ok (by rw [hwaiter, hj]; rfl)
    exact hstop.of_passes (passes_setFiber ⟨rfl, .inr ⟨rfl, rfl⟩⟩ rfl)
  · rw [hj] at hwaiter
    have hmem : g ∈ s.at (.joiner f) := by
      rw [State.at, hwaiter]
      exact List.mem_singleton_self g
    obtain ⟨w', hw', hplace, hhome⟩ := (h g).of_mem (l := .joiner f) (by simp) hmem
    have hgf : g ≠ f := by
      rintro rfl
      rw [hrun] at hw'
      cases hw'
    have hrel := passes_release (s.stop f ok) f ok
    have hstop : (s.stop f ok).fibers g = s.fibers g := by
      rw [State.stop_fibers, Function.update_of_ne hgf]
    have hcur : ((s.stop f ok).release f ok).current = none := by
      unfold State.release
      simp only
      split <;> rfl
    intro g'
    by_cases hg' : g' = g
    · subst hg'
      refine settled_run hw (fun l => ?_) _ _ ?_ ?_
      · rw [(hrel g').counts, State.at_stop]
        split
        · rfl
        · rename_i hl
          rw [hhome l, if_neg (by simpa using Ne.symm hl)]
          rfl
      · intro hi
        have hfib : ((s.stop f ok).release f ok).fibers g' = s.fibers g' := by
          rw [State.release_fibers, Function.update_of_ne hgf, hstop]
        rw [hfib] at hi ⊢
        exact ⟨((h g').armed hi).1, rfl⟩
      · exact ((h g').lt_fiberCount (by simp [hw'])).trans_le (hrel g').count
    · refine Settled.of_passes ?_ (passes_run hw hcur _ _ hg')
      refine Settled.of_passes ?_ (hrel g')
      by_cases hgf' : g' = f
      · subst hgf'
        exact settled_stop h hf ok
      · refine (h g').of_passes (passes_stop hf ok hgf' ?_)
        simpa [hwaiter, Joiner.toList] using hg'

/-! Interruption. -/

theorem Coherent.mark (h : Coherent s) (g : FiberId) : Coherent (s.mark g) :=
  Coherent.record (h.of_passes (passes_setFiber ⟨rfl, .inr ⟨rfl, rfl⟩⟩ rfl)) (.interrupt g)

theorem Coherent.disarm (h : Coherent s) (g : FiberId) :
    Coherent (s.setFiber g fun x => { x with interrupter := .none }) :=
  h.of_passes (passes_setFiber ⟨rfl, .inl rfl⟩ rfl)

theorem Coherent.setOps_map (h : Coherent s) {k : Op → Op} (hk : ∀ x, (k x).fiber = x.fiber) :
    Coherent (s.setOps (s.ops.map k)) := by
  refine h.of_passes fun g => ⟨.refl _, fun l => ?_, fun _ hp _ => hp, Iff.rfl, le_rfl⟩
  rw [State.at_setOps]
  split
  · rename_i hl
    subst hl
    have hfun : Op.fiber ∘ k = Op.fiber := funext hk
    rw [List.map_map, hfun]
    rfl
  · rfl

theorem Coherent.setSends_map (h : Coherent s) {k : FiberId × Bool → FiberId × Bool} (hk : ∀ x, (k x).1 = x.1) :
    Coherent (s.setSends (s.sends.map k)) := by
  refine h.of_passes fun g => ⟨.refl _, fun l => ?_, fun _ hp _ => hp, Iff.rfl, le_rfl⟩
  rw [State.at_setSends]
  split
  · rename_i hl
    subst hl
    have hfun : Prod.fst ∘ k = Prod.fst := funext hk
    rw [List.map_map, hfun]
    rfl
  · rfl

/-- The receiver is posted. -/
theorem Coherent.wake_receiver (h : Coherent s) (hr : s.recvFiber = some g) (a : Args) :
    Coherent ((s.setReceiver none).post g a false) :=
  h.wake (l := .receive) nofun (by simp [State.at, hr]) (drops_setReceiver hr) nofun a false nofun

/-- The interrupter of `g` is called, and then forgotten. -/
theorem coherent_interrupterCall (h : Coherent s) {i : Interrupter} (hi : (s.fibers g).interrupter = i)
    (hs : s.interrupterCall g i = .ok s') : Coherent (s'.setFiber g fun x => { x with interrupter := .none }) := by
  cases i with
  | none =>
      cases hs
      exact h.disarm g
  | queue q =>
      simp only [State.interrupterCall] at hs
      split at hs <;> cases hs
      · rename_i hmem
        have hwake := h.wake (l := .queue q) (by simp) hmem (drops_setQueue (List.perm_cons_erase hmem)) (by simp)
          (.outcome .interrupted) false (by simp)
        exact hwake.disarm g
      · exact h.disarm g
  | join h' =>
      cases hs
      have hmem := (h g).joining h' hi
      obtain ⟨hjoiner, hlive⟩ := Fiber.mem_waiter hmem
      have hw : (s.fibers h').waiter = [g] := by
        simp only [Fiber.waiter]
        split
        · rename_i hphase
          rw [hphase] at hlive
          cases hlive
        all_goals rw [hjoiner]; rfl
      -- the interrupter is cleared first, since the fiber leaves the list it names
      have hdrop : Drops s ((s.setFiber h' fun x => { x with joiner := .nil, userHandle := false }).setFiber g
          fun x => { x with interrupter := .none }) g (.joiner h') := by
        have hjoin : Drops s (s.setFiber h' fun x => { x with joiner := .nil, userHandle := false }) g (.joiner h') := by
          refine drops_joiner ⟨rfl, .inr ⟨rfl, rfl⟩⟩ hw ?_
          simp only [Fiber.waiter]
          split <;> rfl
        refine ⟨fun g' => ?_, fun l g' => ?_, hjoin.posts, hjoin.current, hjoin.count⟩
        · exact (hjoin.calm g').trans (calm_setFiber (k := fun x => { x with interrupter := .none }) ⟨rfl, .inl rfl⟩ g')
        · rw [State.at_setFiber (k := fun x => { x with interrupter := .none }) rfl]
          exact hjoin.counts l g'
      have hwake := h.wake (l := .joiner h') (by simp) hmem hdrop (fun _ _ => by rw [State.setFiber_fibers_self]) (.outcome .interrupted)
        false (by simp)
      exact hwake.of_core rfl
  | signal | pipe o =>
      cases hs
      refine (h.setOps_map fun x => ?_).disarm g
      split <;> rfl
  | receive =>
      simp only [State.interrupterCall] at hs
      split at hs <;> cases hs
      rename_i r hr
      exact (h.wake_receiver hr _).disarm g
  | send =>
      cases hs
      refine (h.setSends_map fun x => ?_).disarm g
      split <;> rfl

theorem coherent_fiberInterrupt (h : Coherent s) (hs : s.fiberInterrupt f g = .ok s') : Coherent s' := by
  rcases fiberInterrupt_cases hs with ⟨-, rfl⟩ | ⟨-, -, rfl⟩ | ⟨-, -, t, ht, rfl⟩
  · exact h
  · exact h.mark g
  · refine coherent_interrupterCall (h.mark g) ?_ ht
    rw [State.mark_fibers, Function.update_self]

/-! Whole steps. -/

theorem coherent_startOp (h : Coherent s) (hf : s.current = some f) (object : Option Nat) {i : Interrupter}
    (hi : i.fits .io = true) : Coherent (s.startOp f object i) := by
  unfold State.startOp
  split
  · exact h.record _
  · refine h.block hf (adds_setOps s ⟨f, object, false, object.isNone⟩) rfl rfl hi ?_
    rintro g rfl
    cases hi

theorem coherent_call {a : Action} (h : Coherent s) (hb : AllBound s) (hf : s.current = some f)
    (hs : call s f a = .ok s') : Coherent s' := by
  have hbound : ∀ {g}, s.hasHandle g = true → (s.life g).Bound := fun {g} hg =>
    have hg' := State.hasHandle_iff.mp hg
    hb g hg'.1 hg'.2.1
  cases a with
  | mutexLock m =>
      cases hs
      unfold State.mutexLock
      split
      · exact h.enqueue hf rfl
      · exact h.of_core rfl
  | mutexTryLock m =>
      cases hs
      unfold State.mutexTryLock
      split
      · exact h
      · exact h.of_core rfl
  | mutexUnlock m =>
      cases hs
      exact coherent_mutexUnlock h f m
  | recursiveMutexLock m =>
      cases hs
      unfold State.recursiveMutexLock
      split
      · exact h.of_core rfl
      · split
        · split
          · exact h
          · exact h.of_core rfl
        · exact h.enqueue hf rfl
  | recursiveMutexTryLock m =>
      cases hs
      unfold State.recursiveMutexTryLock
      split
      · exact h.of_core rfl
      · split
        · split
          · exact h
          · exact h.of_core rfl
        · exact h
  | recursiveMutexUnlock m =>
      cases hs
      exact coherent_recursiveMutexUnlock h f m
  | condWait c m =>
      cases hs
      exact coherent_condWait h hf c m
  | condNotifyOne c =>
      cases hs
      unfold State.condNotifyOne
      split
      · exact h
      · rename_i next rest hq
        exact h.wake_head hq _ _ (by simp)
  | condNotifyAll c =>
      cases hs
      exact h.wakeAll _ _
  | futureGet p =>
      cases hs
      unfold State.futureGet
      split
      · exact h.record _
      · split
        · exact h.record _
        · exact h.record _
        · exact h.record _
        · exact h.enqueue hf (by simp [Interrupter.fits, Wait.silent])
  | promiseSetValue p ref =>
      simp only [call] at hs
      split at hs <;> cases hs
      unfold State.promiseSetValue
      split
      · exact h
      · have hset : Coherent (s.setFuture p (.valueReady ref)) := h.of_core rfl
        have hwake := hset.wakeAll (.future p) (.value ref)
        exact hwake.record _
  | promiseSetError p ref =>
      simp only [call] at hs
      split at hs <;> cases hs
      unfold State.promiseSetError
      split
      · exact h
      · have hset : Coherent (s.setFuture p (.errorReady ref)) := h.of_core rfl
        have hwake := hset.wakeAll (.future p) (.error ref)
        exact hwake.record _
  | promiseGc p =>
      simp only [call] at hs
      split at hs <;> cases hs
      have hset : Coherent (({ s with promises := Function.update s.promises p false } : State).setFuture p .broken) :=
        h.of_core rfl
      have hwake := hset.wakeAll (.future p) .brokenPromise
      exact hwake.record _
  | spawn =>
      cases hs
      exact h.addFiber rfl rfl rfl
  | importModule =>
      simp only [call] at hs
      split at hs <;> cases hs
      exact coherent_importModule h hf
  | fiberJoin g =>
      simp only [call] at hs
      split at hs <;> cases hs
      rename_i hg
      exact coherent_fiberJoin h (hbound hg) hf
  | fiberDetach g =>
      simp only [call] at hs
      split at hs <;> cases hs
      rename_i hg
      exact coherent_fiberDetach h (hbound hg)
  | fiberGc g =>
      simp only [call] at hs
      split at hs <;> cases hs
      rename_i hg
      exact coherent_fiberGc h (hbound hg.1) hg.2
  | fiberInterrupt g =>
      simp only [call] at hs
      split at hs
      · exact coherent_fiberInterrupt h hs
      · cases hs
  | finish ok => exact coherent_finish h hf hs
  | thisFiberYield =>
      cases hs
      unfold State.thisFiberYield
      split
      · exact h.record _
      · exact h.park hf (adds_post s f (.outcome .done) true) (.inl rfl) rfl (by simp) fun _ _ _ => rfl
  | sleepFor | steadyTimerWait o | streamReadSome o | pipeReadSome o =>
      cases hs
      exact coherent_startOp h hf _ rfl
  | cancel o =>
      cases hs
      refine h.setOps_map fun x => ?_
      split <;> rfl
  | chanReceive queued =>
      cases hs
      unfold State.chanReceive
      split
      · exact h.record _
      · split
        · exact h
        · rename_i hguard
          push Not at hguard
          exact h.block hf (adds_setReceiver hguard.2.1 f) rfl rfl rfl (by simp)
  | inboxClose =>
      cases hs
      unfold State.inboxClose
      split
      · exact h
      · split
        · exact h.of_core rfl
        · rename_i r hr
          have hwake := h.wake_receiver hr (.outcome .channelClosed)
          exact hwake.of_core rfl
  | chanSend =>
      cases hs
      unfold State.chanSend
      split
      · exact h.record _
      · exact h.block hf (adds_setSends s (f, false)) rfl rfl rfl (by simp)
  | disableInterruption | restoreInterruption =>
      cases hs
      have hidle := (h f).not_armed (by simp [(h f).running.mpr hf])
      exact h.of_passes (passes_setFiber ⟨rfl, .inl hidle⟩ rfl)
  | runHandler | complete _ _ | deliver _ | answer _ _ => cases hs

theorem exec_coherent {a : Action} (h : Coherent s) (hb : AllBound s) (hs : exec s a = .ok s') : Coherent s' := by
  obtain ⟨-, ⟨f, hcur, hcall⟩ | ⟨i, ec, -, hs⟩ | ⟨i, o, -, hs⟩ | ⟨p, ps, -, hcur, hstrand, hs⟩ | ⟨o, -, hcur, hs⟩⟩ :=
    exec_cases hs
  · exact coherent_call h hb hcur hcall
  · obtain ⟨x, hx, -, rfl⟩ := complete_cases hs
    have hmem : x.fiber ∈ s.at .io := List.mem_map.mpr ⟨x, List.mem_of_getElem? hx, rfl⟩
    exact h.wake (l := .io) (by simp) hmem (drops_setOps hx) (by simp) _ false (by simp)
  · obtain ⟨x, hx, -, rfl⟩ := answer_cases hs
    have hmem : x.1 ∈ s.at .send := List.mem_map.mpr ⟨x, List.mem_of_getElem? hx, rfl⟩
    exact h.wake (l := .send) (by simp) hmem (drops_setSends hx) (by simp) _ false (by simp)
  · obtain ⟨w, hw, rfl⟩ := fiberResume_cases hs
    have hmem : p.fiber ∈ s.at .strand := by simp [State.at, hstrand]
    obtain ⟨w', hw', hhome⟩ := (h p.fiber).of_posted hmem
    refine h.resume hw hhome (drops_strand hstrand) hcur _ _ fun hskip => ?_
    exact (h p.fiber).silent p (by rw [hstrand]; exact List.mem_cons_self ..) rfl hskip w hw
  · obtain ⟨r, w, hr, hw, -, rfl⟩ := deliver_cases hs
    have hmem : r ∈ s.at .receive := by simp [State.at, hr]
    obtain ⟨w', -, -, hhome⟩ := (h r).of_mem (l := .receive) (by simp) hmem
    exact h.resume hw hhome (drops_setReceiver hr) hcur o false (by simp)

end

end Emilua.Sched
