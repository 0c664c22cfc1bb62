import Emilua.Sched.Resumes

/-!
What a step does, said once: the events it adds to the log, the resumes it
posts, what it changes in each fiber and in each future. The invariants of the
modules that follow are derived from this and not from the operations.
-/
namespace Emilua.Sched

/-- What `future:get` obtains. -/
def FutureState.outcome : FutureState → Option Outcome
  | .empty => none
  | .broken => some .brokenPromise
  | .valueReady ref => some (.value ref)
  | .errorReady ref => some (.error ref)

/-- The calls that do not ask whether the fiber may suspend. -/
def Wait.isLock : Wait → Bool
  | .queue (.mutex _) | .queue (.recursiveMutex _) => true
  | _ => false

inductive Posts (s s' : State) : Post → Prop
  | start : Posts s s' ⟨s.fiberCount, .outcome .done, true⟩
  | yield (f : FiberId) (hf : s.current = some f) (hw : (s'.fibers f).phase = .suspended .yield) :
      Posts s s' ⟨f, .outcome .done, true⟩
  | wake (f : FiberId) (q : Queue) (k : Bool) (hf : f ∈ s.queues q) (hq : ∀ p, q ≠ .future p) :
      Posts s s' ⟨f, .outcome .done, k⟩
  | answer (f : FiberId) (p : Nat) (o : Outcome) (hf : f ∈ s.queues (.future p))
      (ho : (s'.futures p).outcome = some o) : Posts s s' ⟨f, .outcome o, false⟩
  | interrupt (f : FiberId) (hon : (s.fibers f).disabled.on = false) (hflag : (s'.fibers f).interrupted = true)
      (harmed : (s.fibers f).interrupter ≠ .none) : Posts s s' ⟨f, .outcome .interrupted, false⟩
  | receiver (f g : FiberId) (hf : s.recvFiber = some f) (hg : (s.fibers g).interrupter = .receive)
      (hflag : (s'.fibers g).interrupted = true) : Posts s s' ⟨f, .outcome .interrupted, false⟩
  | close (f : FiberId) (hf : s.recvFiber = some f) : Posts s s' ⟨f, .outcome .channelClosed, false⟩
  | complete (x : Op) (ec : Outcome) (hx : x ∈ s.ops)
      (hec : ec = .done ∨ ec = .failed ∨ (ec = .aborted ∧ x.cancelled = true)) :
      Posts s s' ⟨x.fiber, .io ec x.fast, false⟩
  | send (x : FiberId × Bool) (o : Outcome) (hx : x ∈ s.sends)
      (ho : o = .done ∨ o = .channelClosed ∨ (o = .interrupted ∧ x.2 = true)) :
      Posts s s' ⟨x.1, .outcome o, false⟩

/-- How a fiber that is suspended in `w` comes by what its call returns. -/
inductive Gets (s : State) (f : FiberId) : Wait → Outcome → Prop
  | handler (w : Wait) (x : Post) (rest : List Post) (hcur : s.current = none) (hs : s.strand = x :: rest)
      (hx : x.fiber = f) : Gets s f w (x.args.read (s.fibers f).interrupted)
  | join (g : FiberId) (ok : Bool) : Gets s f (.join g) (.joined ok)
  | receive (o : Outcome) (ho : o = .done ∨ o = .noSenders) : Gets s f .receive o

inductive Emits (s s' : State) : Event → Prop
  | post (f : FiberId) : Emits s s' (.post f)
  | interrupt (f : FiberId) (hlt : f < s.fiberCount) (hflag : (s'.fibers f).interrupted = true) :
      Emits s s' (.interrupt f)
  | refuse (f : FiberId) (hf : s.current = some f) (hr : (s.fibers f).refused = true) : Emits s s' (.refuse f)
  | suspend (f : FiberId) (w : Wait) (hf : s.current = some f) (hw : (s'.fibers f).phase = .suspended w)
      (hok : (s.fibers f).refused = false ∨ w.isLock = true ∨ (s.fibers f).kind ≠ .spawned) :
      Emits s s' (.suspend f w (s.fibers f).disabled.on)
  | resume (f : FiberId) (w : Wait) (o : Outcome) (hw : (s.fibers f).phase = .suspended w) (ho : Gets s f w o) :
      Emits s s' (.resume f w o)
  | release (e : Event) (g : FiberId) (he : e.releases = some g) : Emits s s' e
  | handOver (m : Nat) (f : FiberId) (hf : f ∈ s.queues (.mutex m)) : Emits s s' (.handOver m f)
  | set (p : Nat) (o : Outcome) (hempty : s.futures p = .empty) (hp : s.promises p = true)
      (ho : (s'.futures p).outcome = some o) (hb : o ≠ .brokenPromise) : Emits s s' (.set p o)
  | collect (p : Nat) (hp : s.promises p = true) (ho : s'.futures p = .broken) : Emits s s' (.collect p)
  | get (f : FiberId) (p : Nat) (o : Outcome) (ho : (s.futures p).outcome = some o) : Emits s s' (.get f p o)

/-- What becomes of a fiber. -/
inductive Turns (s s' : State) (es : List Event) (f : FiberId) : Prop
  | same (hphase : (s'.fibers f).phase = (s.fibers f).phase)
      (hdisabled : (s'.fibers f).disabled = (s.fibers f).disabled)
      (hflag : (s'.fibers f).interrupted = (s.fibers f).interrupted)
  | suspend (w : Wait) (hf : s.current = some f) (hphase : (s'.fibers f).phase = .suspended w)
      (hdisabled : (s'.fibers f).disabled = (s.fibers f).disabled)
      (hflag : (s'.fibers f).interrupted = (s.fibers f).interrupted)
      (he : .suspend f w (s.fibers f).disabled.on ∈ es)
  | resume (w : Wait) (hw : (s.fibers f).phase = .suspended w) (hphase : (s'.fibers f).phase = .running)
      (hdisabled : (s'.fibers f).disabled = (s.fibers f).disabled)
      (hflag : (s'.fibers f).interrupted = (s.fibers f).interrupted)
  | finish (ok : Bool) (hf : s.current = some f) (hphase : (s'.fibers f).phase = .finished ok)
      (hflag : (s'.fibers f).interrupted = (s.fibers f).interrupted)
  | interrupt (hphase : (s'.fibers f).phase = (s.fibers f).phase)
      (hdisabled : (s'.fibers f).disabled = (s.fibers f).disabled) (hkind : (s.fibers f).kind = .spawned)
      (hflag : (s'.fibers f).interrupted = true) (he : .interrupt f ∈ es)
  | count (hf : s.current = some f) (hphase : (s'.fibers f).phase = (s.fibers f).phase)
      (hflag : (s'.fibers f).interrupted = (s.fibers f).interrupted)
  | born (hf : f = s.fiberCount) (hphase : (s'.fibers f).phase = .suspended .start)
      (hflag : (s'.fibers f).interrupted = false)

/-- What becomes of a future. -/
inductive Evolves (s : State) (a : Action) (s' : State) (es : List Event) (p : Nat) : Prop
  | same (hfuture : s'.futures p = s.futures p) (hpromise : s'.promises p = s.promises p)
  | set (o : Outcome) (hempty : s.futures p = .empty) (hfuture : (s'.futures p).outcome = some o)
      (hb : o ≠ .brokenPromise) (hpromise : s'.promises p = s.promises p) (he : .set p o ∈ es)
  | collect (ha : a = .promiseGc p) (hp : s.promises p = true) (hfuture : s'.futures p = .broken) (hpromise : s'.promises p = false)
      (he : .collect p ∈ es)

structure Effect (s : State) (a : Action) (s' : State) (es : List Event) (ps : List Post) : Prop where
  log : s'.log = s.log ++ es
  strand : s'.strand = s.strand ++ ps ∨ ∃ x, s.strand = x :: s'.strand ∧ ps = []
  emits : ∀ e ∈ es, Emits s s' e
  posts : ∀ x ∈ ps, Posts s s' x
  turns : ∀ f, Turns s s' es f
  evolves : ∀ p, Evolves s a s' es p

section
variable {s s₁ s' : State} {a : Action} {f g : FiberId} {w : Wait} {es : List Event} {ps : List Post}

theorem Turns.of_eq (h : s'.fibers f = s.fibers f) : Turns s s' es f :=
  .same (by rw [h]) (by rw [h]) (by rw [h])

/-- A step that leaves the fibers and the futures alone. -/
theorem Effect.quiet (hfibers : s'.fibers = s.fibers) (hlog : s'.log = s.log ++ es)
    (hstrand : s'.strand = s.strand ++ ps) (hfutures : s'.futures = s.futures) (hpromises : s'.promises = s.promises)
    (hemits : ∀ e ∈ es, Emits s s' e) (hposts : ∀ x ∈ ps, Posts s s' x) : Effect s a s' es ps where
  log := hlog
  strand := .inl hstrand
  emits := hemits
  posts := hposts
  turns f := .of_eq (congrFun hfibers f)
  evolves p := .same (congrFun hfutures p) (congrFun hpromises p)

/-- The step that changes nothing. -/
theorem Effect.none (hfibers : s'.fibers = s.fibers) (hlog : s'.log = s.log) (hstrand : s'.strand = s.strand)
    (hfutures : s'.futures = s.futures) (hpromises : s'.promises = s.promises) : Effect s a s' [] [] :=
  .quiet hfibers (by simp [hlog]) (by simp [hstrand]) hfutures hpromises nofun nofun

theorem Effect.event {e : Event} (he : ∀ s', Emits s s' e) : Effect s a (s.record e) [e] [] :=
  .quiet rfl rfl (by simp [State.record]) rfl rfl (by simpa using he _) nofun

/-- The running fiber suspends, after what else the call does. -/
theorem Effect.park {l : List Event} {q : List Post} (hf : s.current = some f) (hself : s₁.fibers f = s.fibers f)
    (hturns : ∀ g, g ≠ f → ∀ s', s'.fibers g = s₁.fibers g → Turns s s' (l ++ [.suspend f w (s.fibers f).disabled.on]) g)
    (hlog : s₁.log = s.log ++ l) (hstrand : s₁.strand = s.strand ++ q) (hfutures : s₁.futures = s.futures)
    (hpromises : s₁.promises = s.promises) (hemits : ∀ e ∈ l, ∀ s', Emits s s' e)
    (hposts : ∀ x ∈ q, ∀ s', (s'.fibers f).phase = .suspended w → Posts s s' x)
    (hok : (s.fibers f).refused = false ∨ w.isLock = true ∨ (s.fibers f).kind ≠ .spawned) (i : Interrupter) :
    Effect s a (s₁.suspend f w i) (l ++ [.suspend f w (s.fibers f).disabled.on]) q := by
  have hfib : (s₁.suspend f w i).fibers f = { (s.fibers f).setInterrupter i with phase := .suspended w } := by
    rw [State.suspend_fibers, Function.update_self, hself]
  have hphase : ((s₁.suspend f w i).fibers f).phase = .suspended w := by rw [hfib]
  refine ⟨?_, .inl hstrand, ?_, fun x hx => hposts x hx _ hphase, fun g => ?_, fun p => ?_⟩
  · change s₁.log ++ [.suspend f w (s₁.fibers f).disabled.on] = _
    rw [hlog, hself, List.append_assoc]
  · intro e he
    rcases List.mem_append.mp he with hold | hnew
    · exact hemits e hold _
    · rw [List.mem_singleton] at hnew
      rw [hnew]
      exact .suspend f w hf hphase hok
  · by_cases hg : g = f
    · subst hg
      refine .suspend w hf hphase ?_ ?_ (List.mem_append_right _ (List.mem_singleton_self _))
      · rw [hfib]
        simp
      · rw [hfib]
        simp
    · refine hturns g hg _ ?_
      rw [State.suspend_fibers, Function.update_of_ne hg]
  · exact .same (congrFun hfutures p) (congrFun hpromises p)

/-- A fiber is put in a wait list. -/
theorem Effect.block (hf : s.current = some f) (hfibers : s₁.fibers = s.fibers) (hlog : s₁.log = s.log)
    (hstrand : s₁.strand = s.strand) (hfutures : s₁.futures = s.futures) (hpromises : s₁.promises = s.promises)
    (hok : (s.fibers f).refused = false ∨ w.isLock = true ∨ (s.fibers f).kind ≠ .spawned) (i : Interrupter) :
    Effect s a (s₁.suspend f w i) [.suspend f w (s.fibers f).disabled.on] [] := by
  have hpark := Effect.park (a := a) (w := w) (l := []) (q := []) hf (congrFun hfibers f)
    (fun g _ s' hg => .of_eq (hg.trans (congrFun hfibers g))) (by simp [hlog]) (by simp [hstrand]) hfutures hpromises
    nofun nofun hok i
  exact hpark

/-- The fibers of a list are woken, and the future changes first. -/
theorem Effect.wakeAll {q : Queue} {o : Outcome} {e : Event} (hfibers : s₁.fibers = s.fibers)
    (hlog : s₁.log = s.log) (hstrand : s₁.strand = s.strand) (hqueue : s₁.queues q = s.queues q)
    (hposts : ∀ f ∈ s.queues q, Posts s ((s₁.wakeAll q o).record e) ⟨f, .outcome o, false⟩)
    (hemits : Emits s ((s₁.wakeAll q o).record e) e)
    (hevolves : ∀ p, Evolves s a ((s₁.wakeAll q o).record e) ((s.queues q).map .post ++ [e]) p) :
    Effect s a ((s₁.wakeAll q o).record e) ((s.queues q).map .post ++ [e])
      ((s.queues q).map fun f => ⟨f, .outcome o, false⟩) where
  log := by
    simp only [State.record, State.wakeAll, hlog, hqueue, List.append_assoc]
  strand := .inl (by simp only [State.record, State.wakeAll, hstrand, hqueue])
  emits x hx := by
    rcases List.mem_append.mp hx with hpost | hlast
    · obtain ⟨f, -, rfl⟩ := List.mem_map.mp hpost
      exact .post f
    · rw [List.mem_singleton] at hlast
      rw [hlast]
      exact hemits
  posts x hx := by
    obtain ⟨f, hf, rfl⟩ := List.mem_map.mp hx
    exact hposts f hf
  turns f := .of_eq (congrFun hfibers f)
  evolves := hevolves

/-! The operations one by one. -/

/-- The head of a wait list is posted. -/
theorem Effect.wake_head {q : Queue} {rest : List FiberId} {k : Bool} (hq : s.queues q = g :: rest)
    (hfuture : ∀ p, q ≠ .future p) (hfibers : s'.fibers = s.fibers) (hlog : s'.log = s.log ++ [.post g])
    (hstrand : s'.strand = s.strand ++ [⟨g, .outcome .done, k⟩]) (hfutures : s'.futures = s.futures)
    (hpromises : s'.promises = s.promises) : Effect s a s' [.post g] [⟨g, .outcome .done, k⟩] :=
  .quiet hfibers hlog hstrand hfutures hpromises (by simpa using Emits.post g)
    (by simpa using Posts.wake g q k (by simp [hq]) hfuture)

theorem effect_hand_over {m : Nat} {rest : List FiberId} (hq : s.queues (.mutex m) = g :: rest)
    (hfibers : s'.fibers = s.fibers) (hlog : s'.log = s.log ++ [.post g, .handOver m g])
    (hstrand : s'.strand = s.strand ++ [⟨g, .outcome .done, true⟩]) (hfutures : s'.futures = s.futures)
    (hpromises : s'.promises = s.promises) :
    Effect s a s' [.post g, .handOver m g] [⟨g, .outcome .done, true⟩] := by
  refine .quiet hfibers hlog hstrand hfutures hpromises ?_ ?_
  · simp only [List.mem_cons, List.not_mem_nil, or_false, forall_eq_or_imp, forall_eq]
    exact ⟨.post g, .handOver m g (by simp [hq])⟩
  · simpa using Posts.wake g (.mutex m) true (by simp [hq]) nofun

theorem effect_mutexUnlock (s : State) (f : FiberId) (m : Nat) : ∃ es ps, Effect s a (s.mutexUnlock f m) es ps := by
  unfold State.mutexUnlock
  split
  · exact ⟨_, _, .none rfl rfl rfl rfl rfl⟩
  · split
    · exact ⟨_, _, .none rfl rfl rfl rfl rfl⟩
    · rename_i next rest hq
      exact ⟨_, _, effect_hand_over hq rfl (by simp [State.record, State.setHolders, State.post, State.setQueue]) rfl
        rfl rfl⟩

theorem effect_condWait (hf : s.current = some f) (c m : Nat) : ∃ es ps, Effect s a (s.condWait f c m) es ps := by
  unfold State.condWait
  split
  · exact ⟨_, _, .none rfl rfl rfl rfl rfl⟩
  · split
    · rename_i hr
      exact ⟨_, _, .event fun _ => .refuse f hf hr⟩
    · rename_i hr
      have hok : (s.fibers f).refused = false := by simpa using hr
      rw [condUnlock_setQueue]
      unfold State.condUnlock
      split
      · exact ⟨_, _, .block hf (by rfl) (by rfl) (by rfl) (by rfl) (by rfl) (.inl hok) _⟩
      · rename_i next rest hq
        refine ⟨_, _, .park (l := [.post next, .handOver m next]) (q := [⟨next, .outcome .done, true⟩]) hf (by rfl)
          (fun g _ s' hg => ?_) ?_ (by rfl) (by rfl) (by rfl) ?_ ?_ (.inl hok) _⟩
        · exact .of_eq hg
        · simp [State.record, State.setHolders, State.post, State.setQueue]
        · simp only [List.mem_cons, List.not_mem_nil, or_false, forall_eq_or_imp, forall_eq]
          exact ⟨fun _ => .post next, fun _ => .handOver m next (by simp [hq])⟩
        · simp only [List.mem_singleton, forall_eq]
          exact fun s' _ => .wake next (.mutex m) true (by simp [hq]) (by simp)

theorem effect_futureGet (hf : s.current = some f) (p : Nat) : ∃ es ps, Effect s a (s.futureGet f p) es ps := by
  unfold State.futureGet
  split
  · rename_i hr
    exact ⟨_, _, .event fun _ => .refuse f hf hr⟩
  · rename_i hr
    split
    · rename_i hfuture
      exact ⟨_, _, .event fun _ => .get f p _ (by rw [hfuture]; rfl)⟩
    · rename_i hfuture
      exact ⟨_, _, .event fun _ => .get f p _ (by rw [hfuture]; rfl)⟩
    · rename_i hfuture
      exact ⟨_, _, .event fun _ => .get f p _ (by rw [hfuture]; rfl)⟩
    · exact ⟨_, _, .block hf (by rfl) (by rfl) (by rfl) (by rfl) (by rfl) (.inl (by simpa using hr)) _⟩

/-- `set_value` and `set_error`. -/
theorem effect_set {p : Nat} {x : FutureState} {o : Outcome} (hx : x.outcome = some o) (ho : o ≠ .brokenPromise)
    (hp : s.promises p = true) (hempty : s.futures p = .empty) :
    ∃ es ps, Effect s a (((s.setFuture p x).wakeAll (.future p) o).record (.set p o)) es ps := by
  have hself : (((s.setFuture p x).wakeAll (.future p) o).record (.set p o)).futures p = x :=
    Function.update_self (β := fun _ => FutureState) p x s.futures
  refine ⟨_, _, .wakeAll rfl rfl rfl rfl (fun f hf => ?_) ?_ fun p' => ?_⟩
  · exact .answer f p o hf (by rw [hself, hx])
  · exact .set p o hempty hp (by rw [hself, hx]) ho
  · by_cases hpp : p' = p
    · subst hpp
      exact .set o hempty (by rw [hself, hx]) ho rfl (List.mem_append_right _ (List.mem_singleton_self _))
    · exact .same (Function.update_of_ne (β := fun _ => FutureState) hpp x s.futures) rfl

theorem effect_promiseGc {p : Nat} (hp : s.promises p = true) :
    ∃ es ps, Effect s (.promiseGc p) (s.promiseGc p) es ps := by
  have hself : (s.promiseGc p).futures p = .broken :=
    Function.update_self (β := fun _ => FutureState) p .broken s.futures
  refine ⟨_, _, .wakeAll (e := .collect p) rfl rfl rfl rfl (fun f hf => ?_) ?_ fun p' => ?_⟩
  · exact .answer f p .brokenPromise hf (congrArg FutureState.outcome hself)
  · exact .collect p hp hself
  · by_cases hpp : p' = p
    · subst hpp
      exact .collect rfl hp hself (Function.update_self (β := fun _ => Bool) p' false s.promises)
        (List.mem_append_right _ (List.mem_singleton_self _))
    · exact .same (Function.update_of_ne (β := fun _ => FutureState) hpp .broken s.futures)
        (Function.update_of_ne (β := fun _ => Bool) hpp false s.promises)

theorem effect_fiberJoin (hf : s.current = some f) : ∃ es ps, Effect s a (s.fiberJoin f g) es ps := by
  unfold State.fiberJoin
  split
  · rename_i hr
    exact ⟨_, _, .event fun _ => .refuse f hf hr⟩
  · rename_i hr
    split
    · exact ⟨_, _, .none rfl rfl rfl rfl rfl⟩
    · split
      · exact ⟨_, _, .none rfl rfl rfl rfl rfl⟩
      · rename_i hne
        split
        · refine ⟨_, _, .park (l := []) (q := []) hf ?_ (fun g' _ s' hg' => ?_) ?_ ?_ (by rfl) (by rfl) (by simp) (by simp)
            (.inl (by simpa using hr)) _⟩
          · simp [State.setHandle, State.setFiber, Ne.symm hne]
          · have hfib : s'.fibers g' = (s.setFiber g fun x => { x with joiner := .fiber f, userHandle := true }).fibers g' :=
              hg'
            by_cases hgg : g' = g
            · subst hgg
              rw [State.setFiber_fibers_self] at hfib
              exact .same (by rw [hfib]) (by rw [hfib]) (by rw [hfib])
            · rw [State.setFiber_fibers_ne s hgg] at hfib
              exact .of_eq hfib
          · simp [State.setHandle, State.setFiber]
          · simp [State.setHandle, State.setFiber]
        · refine ⟨[.joined g], [], rfl, .inl (by simp [State.record, State.setHandle, State.unlist, State.setFiber]),
            by simpa using Emits.release (.joined g) g rfl, (by simp), fun g' => ?_, fun p => .same rfl rfl⟩
          by_cases hgg : g' = g
          · subst hgg
            refine .same ?_ ?_ ?_
            all_goals simp [State.record, State.setHandle, State.unlist, State.setFiber]
          · refine .of_eq ?_
            simp [State.record, State.setHandle, State.unlist, State.setFiber, hgg]

/-- `detach` and the collection of a handle. -/
theorem effect_drop {e : Event} {k : Fiber → Fiber} {k' : Handle → Handle} (he : e.releases = some g)
    (hk : (k (s.fibers g)).phase = (s.fibers g).phase ∧ (k (s.fibers g)).disabled = (s.fibers g).disabled ∧
      (k (s.fibers g)).interrupted = (s.fibers g).interrupted) :
    Effect s a (((s.setHandle g k').record e).setFiber g k) [e] [] := by
  refine ⟨rfl, .inl (by simp [State.record, State.setHandle, State.setFiber]), by simpa using Emits.release e g he, nofun,
    fun g' => ?_, fun p => .same rfl rfl⟩
  by_cases hgg : g' = g
  · subst hgg
    have hfib : (((s.setHandle g' k').record e).setFiber g' k).fibers g' = k (s.fibers g') :=
      State.setFiber_fibers_self ..
    exact .same (by rw [hfib]; exact hk.1) (by rw [hfib]; exact hk.2.1) (by rw [hfib]; exact hk.2.2)
  · exact .of_eq (State.setFiber_fibers_ne _ hgg _)

theorem effect_fiberDetach : ∃ es ps, Effect s a (s.fiberDetach g) es ps := by
  unfold State.fiberDetach
  split
  · exact ⟨_, _, .none rfl rfl rfl rfl rfl⟩
  · split
    · exact ⟨_, _, effect_drop rfl ⟨rfl, rfl, rfl⟩⟩
    · exact ⟨_, _, effect_drop rfl ⟨rfl, rfl, rfl⟩⟩

theorem effect_fiberGc : ∃ es ps, Effect s a (s.fiberGc g) es ps := by
  unfold State.fiberGc
  split
  · refine ⟨[.collectHandle g], [], .quiet rfl rfl ?_ rfl rfl (by simpa using Emits.release (.collectHandle g) g rfl) nofun⟩
    simp [State.record, State.setHandle]
  · split
    · exact ⟨_, _, effect_drop rfl ⟨rfl, rfl, rfl⟩⟩
    · exact ⟨_, _, effect_drop rfl ⟨rfl, rfl, rfl⟩⟩

theorem effect_importModule (hf : s.current = some f) (hlt : f < s.fiberCount) (hkind : (s.fibers f).kind ≠ .spawned) :
    ∃ es ps, Effect s a (s.importModule f) es ps := by
  have hne : f ≠ s.fiberCount := Nat.ne_of_lt hlt
  refine ⟨_, _, .park (l := [.post s.fiberCount]) (q := [⟨s.fiberCount, .outcome .done, true⟩]) hf ?_
    (fun g _ s' hg => ?_) (by rfl) (by rfl) (by rfl) (by rfl) ?_ ?_ (.inr (.inr hkind)) _⟩
  · simp [State.post, State.addFiber, hne]
  · by_cases hgn : g = s.fiberCount
    · have hfib : s'.fibers g = .module f := by
        rw [hg, hgn]
        simp [State.post, State.addFiber]
      exact .born hgn (by rw [hfib]; rfl) (by rw [hfib]; rfl)
    · refine .of_eq (hg.trans ?_)
      simp [State.post, State.addFiber, hgn]
  · simpa using fun _ => Emits.post s.fiberCount
  · simpa using fun _ _ => Posts.start

theorem effect_spawn : Effect s a s.spawn [.post s.fiberCount] [⟨s.fiberCount, .outcome .done, true⟩] where
  log := rfl
  strand := .inl rfl
  emits := by simpa using Emits.post s.fiberCount
  posts := by simpa using Posts.start
  turns g := by
    by_cases hg : g = s.fiberCount
    · have hfib : s.spawn.fibers g = .spawned := by
        rw [hg]
        simp [State.spawn, State.post, State.addFiber]
      exact .born hg (by rw [hfib]; rfl) (by rw [hfib]; rfl)
    · refine .of_eq ?_
      simp [State.spawn, State.post, State.addFiber, hg]
  evolves _ := .same rfl rfl

/-- Fiber `g` is told of an interruption, and a resume may be posted. -/
theorem effect_interrupt {l : List Event} {q : List Post} (hlt : g < s.fiberCount) (hkind : (s.fibers g).kind = .spawned)
    (hlog : s'.log = s.log ++ .interrupt g :: l)
    (hstrand : s'.strand = s.strand ++ q) (hfutures : s'.futures = s.futures) (hpromises : s'.promises = s.promises)
    (hemits : ∀ e ∈ l, Emits s s' e) (hposts : ∀ x ∈ q, Posts s s' x)
    (hself : (s'.fibers g).phase = (s.fibers g).phase ∧ (s'.fibers g).disabled = (s.fibers g).disabled ∧
      (s'.fibers g).interrupted = true)
    (hothers : ∀ h, h ≠ g → (s'.fibers h).phase = (s.fibers h).phase ∧
      (s'.fibers h).disabled = (s.fibers h).disabled ∧ (s'.fibers h).interrupted = (s.fibers h).interrupted) :
    Effect s a s' (.interrupt g :: l) q where
  log := hlog
  strand := .inl hstrand
  emits e he := by
    rcases List.mem_cons.mp he with rfl | he
    · exact .interrupt g hlt hself.2.2
    · exact hemits e he
  posts := hposts
  turns h := by
    by_cases hg : h = g
    · subst hg
      exact .interrupt hself.1 hself.2.1 hkind hself.2.2 (List.mem_cons_self ..)
    · exact .same (hothers h hg).1 (hothers h hg).2.1 (hothers h hg).2.2
  evolves p := .same (congrFun hfutures p) (congrFun hpromises p)

def Fiber.Steady (x' x : Fiber) : Prop :=
  x'.phase = x.phase ∧ x'.disabled = x.disabled ∧ x'.interrupted = x.interrupted

theorem Fiber.Steady.refl (x : Fiber) : x.Steady x := ⟨rfl, rfl, rfl⟩

theorem steady_setFiber {k : Fiber → Fiber} (hk : ∀ x, (k x).Steady x) (h : FiberId) :
    ((s.setFiber g k).fibers h).Steady (s.fibers h) := by
  by_cases hg : h = g
  · subst hg
    rw [State.setFiber_fibers_self]
    exact hk _
  · rw [State.setFiber_fibers_ne s hg]
    exact .refl _

/-- The interrupter has been called, and is forgotten. -/
theorem marked_fibers {t : State} (ht : ∀ h, (t.fibers h).Steady ((s.mark g).fibers h)) :
    (((t.setFiber g fun x => { x with interrupter := .none }).fibers g).phase = (s.fibers g).phase ∧
      ((t.setFiber g fun x => { x with interrupter := .none }).fibers g).disabled = (s.fibers g).disabled ∧
      ((t.setFiber g fun x => { x with interrupter := .none }).fibers g).interrupted = true) ∧
    ∀ h, h ≠ g → ((t.setFiber g fun x => { x with interrupter := .none }).fibers h).Steady (s.fibers h) := by
  constructor
  · have hself := ht g
    rw [State.mark_fibers, Function.update_self] at hself
    rw [State.setFiber_fibers_self]
    exact hself
  · intro h hh
    have hother := ht h
    rw [State.mark_fibers, Function.update_of_ne hh] at hother
    rw [State.setFiber_fibers_ne t hh]
    exact hother

theorem effect_fiberInterrupt (h : Coherent s) (hlt : g < s.fiberCount) (hkind : (s.fibers g).kind = .spawned)
    (hs : s.fiberInterrupt f g = .ok s') : ∃ es ps, Effect s a s' es ps := by
  rcases fiberInterrupt_cases hs with ⟨-, rfl⟩ | ⟨-, -, rfl⟩ | ⟨-, -, t, ht, rfl⟩
  · exact ⟨_, _, .none rfl rfl rfl rfl rfl⟩
  · refine ⟨_, _, effect_interrupt (l := []) (q := []) hlt hkind rfl (by simp [State.mark, State.setFiber, State.record])
      rfl rfl nofun nofun ?_ fun h' hh => ?_⟩
    · rw [State.mark_fibers, Function.update_self]
      exact ⟨rfl, rfl, rfl⟩
    · rw [State.mark_fibers, Function.update_of_ne hh]
      exact ⟨rfl, rfl, rfl⟩
  · cases hint : (s.fibers g).interrupter with
    | none | signal | pipe o | send =>
        rw [hint] at ht
        cases ht
        obtain ⟨hself, hothers⟩ := marked_fibers (s := s) (g := g) (t := s.mark g) fun _ => .refl _
        exact ⟨_, _, effect_interrupt (l := []) (q := []) hlt hkind rfl
          (by simp [State.mark, State.setFiber, State.record, State.setOps, State.setSends])
          rfl rfl nofun nofun hself hothers⟩
    | queue q =>
        have hon := ((h g).armed (by simp [hint])).1
        obtain ⟨hself, hothers⟩ := marked_fibers (s := s) (g := g) (t := s.mark g) fun _ => .refl _
        rw [hint] at ht
        simp only [State.interrupterCall] at ht
        split at ht <;> cases ht
        · refine ⟨_, _, effect_interrupt (l := [.post g]) (q := [⟨g, .outcome .interrupted, false⟩]) hlt hkind ?_ rfl rfl rfl
            (by simpa using Emits.post g) ?_ hself hothers⟩
          · simp [State.mark, State.setFiber, State.record, State.post, State.setQueue]
          · simp only [List.mem_singleton, forall_eq]
            exact .interrupt g hon hself.2.2 (by simp [hint])
        · exact ⟨_, _, effect_interrupt (l := []) (q := []) hlt hkind rfl
            (by simp [State.mark, State.setFiber, State.record]) rfl rfl nofun nofun hself hothers⟩
    | join h' =>
        have hon := ((h g).armed (by simp [hint])).1
        rw [hint] at ht
        cases ht
        have hsteady : ∀ g', (((s.mark g).setFiber h' fun x => { x with joiner := .nil, userHandle := false }).fibers
            g').Steady ((s.mark g).fibers g') := steady_setFiber fun _ => ⟨rfl, rfl, rfl⟩
        obtain ⟨hself, hothers⟩ := marked_fibers hsteady
        refine ⟨_, _, effect_interrupt (l := [.post g]) (q := [⟨g, .outcome .interrupted, false⟩]) hlt hkind ?_ rfl rfl rfl
          (by simpa using Emits.post g) ?_ hself hothers⟩
        · simp [State.mark, State.setFiber, State.record, State.post, State.setHandle]
        · simp only [List.mem_singleton, forall_eq]
          exact .interrupt g hon hself.2.2 (by simp [hint])
    | receive =>
        rw [hint] at ht
        simp only [State.interrupterCall] at ht
        split at ht <;> cases ht
        rename_i r hr
        obtain ⟨hself, hothers⟩ := marked_fibers (s := s) (g := g) (t := s.mark g) fun _ => .refl _
        refine ⟨_, _, effect_interrupt (l := [.post r]) (q := [⟨r, .outcome .interrupted, false⟩]) hlt hkind ?_ rfl rfl rfl
          (by simpa using Emits.post r) ?_ hself hothers⟩
        · simp [State.mark, State.setFiber, State.record, State.post, State.setReceiver]
        · simp only [List.mem_singleton, forall_eq]
          exact .receiver r g hr hint hself.2.2

theorem State.run_self (s : State) (f : FiberId) (w : Wait) (o : Outcome) (k : Bool) :
    ((s.run f w o k).fibers f).phase = .running ∧ ((s.run f w o k).fibers f).disabled = (s.fibers f).disabled ∧
      ((s.run f w o k).fibers f).interrupted = (s.fibers f).interrupted := by
  rw [State.run_fibers, Function.update_self]
  cases k <;> simp

/-- The head of the strand is run. -/
theorem effect_handler {x : Post} {rest : List Post} (hcur : s.current = none) (hstrand : s.strand = x :: rest)
    (hw : (s.fibers x.fiber).phase = .suspended w) :
    Effect s a (({ s with strand := rest } : State).run x.fiber w (x.args.read (s.fibers x.fiber).interrupted) x.skipClear)
      [.resume x.fiber w (x.args.read (s.fibers x.fiber).interrupted)] [] where
  log := rfl
  strand := .inr ⟨x, hstrand, rfl⟩
  emits := by
    simp only [List.mem_singleton, forall_eq]
    exact .resume x.fiber w _ hw (.handler w x rest hcur hstrand rfl)
  posts := nofun
  turns g := by
    by_cases hg : g = x.fiber
    · subst hg
      obtain ⟨hrun, hdisabled, hflag⟩ := State.run_self ({ s with strand := rest } : State) x.fiber w
        (x.args.read (s.fibers x.fiber).interrupted) x.skipClear
      exact .resume w hw hrun hdisabled hflag
    · refine .of_eq ?_
      rw [State.run_fibers, Function.update_of_ne hg]
  evolves _ := .same rfl rfl

theorem effect_deliver {r : FiberId} {o : Outcome} (hw : (s.fibers r).phase = .suspended .receive)
    (ho : o = .done ∨ o = .noSenders) :
    Effect s a ((s.setReceiver none).run r .receive o false) [.resume r .receive o] [] where
  log := rfl
  strand := .inl (by simp [State.run, State.setReceiver, State.setFiber, State.record])
  emits := by
    simp only [List.mem_singleton, forall_eq]
    exact .resume r .receive o hw (.receive o ho)
  posts := nofun
  turns g := by
    by_cases hg : g = r
    · subst hg
      obtain ⟨hrun, hdisabled, hflag⟩ := State.run_self (s.setReceiver none) g .receive o false
      exact .resume .receive hw hrun hdisabled hflag
    · refine .of_eq ?_
      rw [State.run_fibers, Function.update_of_ne hg]
      rfl
  evolves _ := .same rfl rfl

/-- A fiber has ended, and nobody is resumed. -/
theorem effect_stop (ok : Bool) (hf : s.current = some f) (hphase : (s'.fibers f).phase = .finished ok)
    (hflag : (s'.fibers f).interrupted = (s.fibers f).interrupted) (hothers : ∀ g, g ≠ f → s'.fibers g = s.fibers g)
    (hlog : s'.log = s.log) (hstrand : s'.strand = s.strand) (hfutures : s'.futures = s.futures)
    (hpromises : s'.promises = s.promises) : Effect s a s' [] [] where
  log := by simp [hlog]
  strand := .inl (by simp [hstrand])
  emits := nofun
  posts := nofun
  turns g := by
    by_cases hg : g = f
    · subst hg
      exact .finish ok hf hphase hflag
    · exact .of_eq (hothers g hg)
  evolves p := .same (congrFun hfutures p) (congrFun hpromises p)

theorem State.release_log (s : State) (f : FiberId) (ok : Bool) : (s.release f ok).log = s.log ++ [.joined f] := by
  unfold State.release
  simp only
  split <;> rfl

theorem State.release_strand (s : State) (f : FiberId) (ok : Bool) : (s.release f ok).strand = s.strand := by
  unfold State.release
  simp only
  split <;> rfl

theorem State.release_futures (s : State) (f : FiberId) (ok : Bool) :
    (s.release f ok).futures = s.futures ∧ (s.release f ok).promises = s.promises := by
  unfold State.release
  simp only
  split <;> exact ⟨rfl, rfl⟩

theorem effect_finish {ok : Bool} (h : Coherent s) (hf : s.current = some f) (hs : s.fiberEpilogue f ok = .ok s') :
    ∃ es ps, Effect s a s' es ps := by
  have hrun := (h f).running.mpr hf
  rcases fiberEpilogue_cases hs with ⟨-, -, -, rfl⟩ | ⟨-, -, rfl⟩ | ⟨-, rfl⟩ | ⟨g, w, hj, hw, rfl⟩
  · refine ⟨_, _, effect_stop ok hf ?_ ?_ (fun g hg => ?_) rfl rfl rfl rfl⟩ <;>
      simp [State.stop_fibers, *]
  · refine ⟨_, _, effect_stop ok hf ?_ ?_ (fun g hg => ?_) rfl rfl rfl rfl⟩ <;>
      simp [State.unlist, State.setFiber, State.stop_fibers, *]
  · refine ⟨_, _, effect_stop ok hf ?_ ?_ (fun g hg => ?_) rfl rfl rfl rfl⟩ <;>
      simp [State.setFiber, State.stop_fibers, *]
  · have hmem : g ∈ s.at (.joiner f) := by
      simp [State.at, Fiber.waiter, hrun, hj, Joiner.toList]
    obtain ⟨w', hw', hplace, -⟩ := (h g).of_mem (l := .joiner f) (by simp) hmem
    have hgf : g ≠ f := by
      rintro rfl
      rw [hrun] at hw'
      cases hw'
    have hfib : ((s.stop f ok).release f ok).fibers g = s.fibers g := by
      rw [State.release_fibers, Function.update_of_ne hgf, State.stop_fibers, Function.update_of_ne hgf]
    rw [hfib, hw'] at hw
    cases hw
    have hjoin : w = .join f := by
      cases w <;> simp_all [Wait.place]
    subst hjoin
    refine ⟨[.joined f, .resume g (.join f) (.joined ok)], [], ?_, .inl ?_, ?_, (by simp), fun h' => ?_, fun p => ?_⟩
    · simp [State.run, State.setFiber, State.record, State.release_log, State.stop]
    · simp [State.run, State.setFiber, State.record, State.release_strand, State.stop]
    · simp only [List.mem_cons, List.not_mem_nil, or_false, forall_eq_or_imp, forall_eq]
      exact ⟨.release _ f rfl, .resume g (.join f) _ hw' (.join f ok)⟩
    · by_cases hg : h' = g
      · subst hg
        obtain ⟨hrunning, hdisabled, hflag⟩ :=
          State.run_self ((s.stop f ok).release f ok) h' (.join f) (.joined ok) false
        rw [hfib] at hdisabled hflag
        exact .resume (.join f) hw' hrunning hdisabled hflag
      · by_cases hh : h' = f
        · subst hh
          refine .finish ok hf ?_ ?_
          all_goals
            rw [State.run_fibers, Function.update_of_ne hg, State.release_fibers, Function.update_self,
              State.stop_fibers, Function.update_self]
        · refine .of_eq ?_
          rw [State.run_fibers, Function.update_of_ne hg, State.release_fibers, Function.update_of_ne hh,
            State.stop_fibers, Function.update_of_ne hh]
    · exact .same (congrFun (State.release_futures (s.stop f ok) f ok).1 p)
        (congrFun (State.release_futures (s.stop f ok) f ok).2 p)

/-- The operations that may be refused. -/
theorem effect_startOp (hf : s.current = some f) (object : Option Nat) (i : Interrupter) :
    ∃ es ps, Effect s a (s.startOp f object i) es ps := by
  unfold State.startOp
  split
  · rename_i hr
    exact ⟨_, _, .event fun _ => .refuse f hf hr⟩
  · rename_i hr
    exact ⟨_, _, .block hf (by rfl) (by rfl) (by rfl) (by rfl) (by rfl) (.inl (by simpa using hr)) _⟩

theorem effect_setDisabled {k : Fiber → Fiber} (hf : s.current = some f)
    (hk : (k (s.fibers f)).phase = (s.fibers f).phase ∧ (k (s.fibers f)).interrupted = (s.fibers f).interrupted) :
    Effect s a (s.setFiber f k) [] [] where
  log := by simp [State.setFiber]
  strand := .inl (by simp [State.setFiber])
  emits := nofun
  posts := nofun
  turns g := by
    by_cases hg : g = f
    · subst hg
      refine .count hf ?_ ?_
      · rw [State.setFiber_fibers_self]
        exact hk.1
      · rw [State.setFiber_fibers_self]
        exact hk.2
    · exact .of_eq (State.setFiber_fibers_ne s hg k)
  evolves _ := .same rfl rfl

theorem call_effect (h : Coherent s) (hf : s.current = some f) (hs : call s f a = .ok s') :
    ∃ es ps, Effect s a s' es ps := by
  have hlt : f < s.fiberCount := (h f).lt_fiberCount (by simp [(h f).running.mpr hf])
  cases a with
  | mutexLock m =>
      cases hs
      unfold State.mutexLock
      split
      · exact ⟨_, _, .block hf (by rfl) (by rfl) (by rfl) (by rfl) (by rfl) (.inr (.inl rfl)) _⟩
      · exact ⟨_, _, .none rfl rfl rfl rfl rfl⟩
  | mutexTryLock m =>
      cases hs
      unfold State.mutexTryLock
      split <;> exact ⟨_, _, .none rfl rfl rfl rfl rfl⟩
  | mutexUnlock m =>
      cases hs
      exact effect_mutexUnlock s f m
  | recursiveMutexLock m =>
      cases hs
      unfold State.recursiveMutexLock
      split
      · exact ⟨_, _, .none rfl rfl rfl rfl rfl⟩
      · split
        · split <;> exact ⟨_, _, .none rfl rfl rfl rfl rfl⟩
        · exact ⟨_, _, .block hf (by rfl) (by rfl) (by rfl) (by rfl) (by rfl) (.inr (.inl rfl)) _⟩
  | recursiveMutexTryLock m =>
      cases hs
      unfold State.recursiveMutexTryLock
      repeat' split
      all_goals exact ⟨_, _, .none rfl rfl rfl rfl rfl⟩
  | recursiveMutexUnlock m =>
      cases hs
      unfold State.recursiveMutexUnlock
      split
      · exact ⟨_, _, .none rfl rfl rfl rfl rfl⟩
      · split
        · exact ⟨_, _, .none rfl rfl rfl rfl rfl⟩
        · split
          · exact ⟨_, _, .none rfl rfl rfl rfl rfl⟩
          · rename_i next rest hq
            exact ⟨_, _, .wake_head hq (by simp) rfl rfl rfl rfl rfl⟩
  | condWait c m =>
      cases hs
      exact effect_condWait hf c m
  | condNotifyOne c =>
      cases hs
      unfold State.condNotifyOne
      split
      · exact ⟨_, _, .none rfl rfl rfl rfl rfl⟩
      · rename_i next rest hq
        exact ⟨_, _, .wake_head hq (by simp) rfl rfl rfl rfl rfl⟩
  | condNotifyAll c =>
      cases hs
      refine ⟨(s.queues (.cond c)).map .post, (s.queues (.cond c)).map fun f => ⟨f, .outcome .done, false⟩,
        .quiet rfl rfl rfl rfl rfl ?_ ?_⟩
      · intro e he
        obtain ⟨g, -, rfl⟩ := List.mem_map.mp he
        exact .post g
      · intro x hx
        obtain ⟨g, hg, rfl⟩ := List.mem_map.mp hx
        exact .wake g (.cond c) false hg (by simp)
  | futureGet p =>
      cases hs
      exact effect_futureGet hf p
  | promiseSetValue p ref =>
      simp only [call] at hs
      split at hs <;> cases hs
      rename_i hp
      unfold State.promiseSetValue
      split
      · exact ⟨_, _, .none rfl rfl rfl rfl rfl⟩
      · rename_i hempty
        exact effect_set rfl (by simp) hp (by simpa using hempty)
  | promiseSetError p ref =>
      simp only [call] at hs
      split at hs <;> cases hs
      rename_i hp
      unfold State.promiseSetError
      split
      · exact ⟨_, _, .none rfl rfl rfl rfl rfl⟩
      · rename_i hempty
        exact effect_set rfl (by simp) hp (by simpa using hempty)
  | promiseGc p =>
      simp only [call] at hs
      split at hs <;> cases hs
      rename_i hp
      exact effect_promiseGc hp
  | spawn =>
      cases hs
      exact ⟨_, _, effect_spawn⟩
  | importModule =>
      simp only [call] at hs
      split at hs <;> cases hs
      rename_i hkind
      exact effect_importModule hf hlt hkind
  | fiberJoin g =>
      simp only [call] at hs
      split at hs <;> cases hs
      exact effect_fiberJoin hf
  | fiberDetach g =>
      simp only [call] at hs
      split at hs <;> cases hs
      exact effect_fiberDetach
  | fiberGc g =>
      simp only [call] at hs
      split at hs <;> cases hs
      exact effect_fiberGc
  | fiberInterrupt g =>
      simp only [call] at hs
      split at hs
      · rename_i hg
        obtain ⟨hlt', hkind, -⟩ := State.hasHandle_iff.mp hg
        exact effect_fiberInterrupt h hlt' hkind hs
      · cases hs
  | finish ok => exact effect_finish h hf hs
  | thisFiberYield =>
      cases hs
      unfold State.thisFiberYield
      split
      · rename_i hr
        exact ⟨_, _, .event fun _ => .refuse f hf hr⟩
      · rename_i hr
        refine ⟨_, _, .park (l := [.post f]) (q := [⟨f, .outcome .done, true⟩]) hf (by rfl) (fun g _ s' hg => ?_)
          (by rfl) (by rfl) (by rfl) (by rfl) ?_ ?_ (.inl (by simpa using hr)) _⟩
        · exact .of_eq hg
        · simpa using fun _ => Emits.post f
        · simp only [List.mem_singleton, forall_eq]
          exact fun s' hw => .yield f hf hw
  | sleepFor | steadyTimerWait o | streamReadSome o | pipeReadSome o =>
      cases hs
      exact effect_startOp hf _ _
  | cancel o =>
      cases hs
      exact ⟨_, _, .none rfl rfl rfl rfl rfl⟩
  | chanReceive queued =>
      cases hs
      unfold State.chanReceive
      split
      · rename_i hr
        exact ⟨_, _, .event fun _ => .refuse f hf hr⟩
      · rename_i hr
        split
        · exact ⟨_, _, .none rfl rfl rfl rfl rfl⟩
        · exact ⟨_, _, .block hf (by rfl) (by rfl) (by rfl) (by rfl) (by rfl) (.inl (by simpa using hr)) _⟩
  | inboxClose =>
      cases hs
      unfold State.inboxClose
      split
      · exact ⟨_, _, .none rfl rfl rfl rfl rfl⟩
      · split
        · exact ⟨_, _, .none rfl rfl rfl rfl rfl⟩
        · rename_i r hr
          refine ⟨[.post r], [⟨r, .outcome .channelClosed, false⟩], .quiet rfl rfl rfl rfl rfl (by simpa using Emits.post r)
            ?_⟩
          simp only [List.mem_singleton, forall_eq]
          exact .close r hr
  | chanSend =>
      cases hs
      unfold State.chanSend
      split
      · rename_i hr
        exact ⟨_, _, .event fun _ => .refuse f hf hr⟩
      · rename_i hr
        exact ⟨_, _, .block hf (by rfl) (by rfl) (by rfl) (by rfl) (by rfl) (.inl (by simpa using hr)) _⟩
  | disableInterruption | restoreInterruption =>
      cases hs
      exact ⟨_, _, effect_setDisabled hf ⟨rfl, rfl⟩⟩
  | runHandler | complete _ _ | deliver _ | answer _ _ => cases hs

/-- Every step is described by the events it adds and the resumes it posts. -/
theorem exec_effect (h : Coherent s) (hs : exec s a = .ok s') : ∃ es ps, Effect s a s' es ps := by
  obtain ⟨-, ⟨f, hcur, hcall⟩ | ⟨i, ec, -, hs⟩ | ⟨i, o, -, hs⟩ | ⟨p, ps, -, hcur, hstrand, hs⟩ | ⟨o, -, hcur, hs⟩⟩ :=
    exec_cases hs
  · exact call_effect h hcur hcall
  · obtain ⟨x, hx, hec, rfl⟩ := complete_cases hs
    refine ⟨[.post x.fiber], [⟨x.fiber, .io ec x.fast, false⟩], .quiet rfl rfl rfl rfl rfl
      (by simpa using Emits.post x.fiber) ?_⟩
    simp only [List.mem_singleton, forall_eq]
    exact .complete x ec (List.mem_of_getElem? hx) hec
  · obtain ⟨x, hx, ho, rfl⟩ := answer_cases hs
    refine ⟨[.post x.1], [⟨x.1, .outcome o, false⟩], .quiet rfl rfl rfl rfl rfl (by simpa using Emits.post x.1) ?_⟩
    simp only [List.mem_singleton, forall_eq]
    exact .send x o (List.mem_of_getElem? hx) ho
  · obtain ⟨w, hw, rfl⟩ := fiberResume_cases hs
    exact ⟨_, _, effect_handler hcur hstrand hw⟩
  · obtain ⟨r, w, hr, hw, ho, rfl⟩ := deliver_cases hs
    have hmem : r ∈ s.at .receive := by simp [State.at, hr]
    obtain ⟨w', hw', hplace, -⟩ := (h r).of_mem (l := .receive) (by simp) hmem
    rw [hw] at hw'
    cases hw'
    have hreceive : w = .receive := by
      cases w <;> simp_all [Wait.place]
    subst hreceive
    exact ⟨_, _, effect_deliver hw ho⟩

/-! What follows for single fibers. -/

theorem Effect.emits_mem (he : Effect s a s' es ps) {e : Event} (hmem : e ∈ s'.log) : e ∈ s.log ∨ Emits s s' e := by
  rw [he.log] at hmem
  exact (List.mem_append.mp hmem).imp_right (he.emits e)

theorem Effect.log_mem (he : Effect s a s' es ps) {e : Event} (hmem : e ∈ s.log) : e ∈ s'.log := by
  rw [he.log]
  exact List.mem_append_left _ hmem

/-- A fiber that stays suspended stays in the same call. -/
theorem Effect.wait_eq (he : Effect s a s' es ps) (h : Coherent s) {w' : Wait}
    (hw : (s.fibers f).phase = .suspended w) (hw' : (s'.fibers f).phase = .suspended w') : w' = w := by
  have hcur : s.current ≠ some f := by
    intro hf
    have hrun := (h f).running.mpr hf
    rw [hw] at hrun
    cases hrun
  cases he.turns f with
  | same hphase | interrupt hphase =>
      rw [hphase, hw] at hw'
      exact (Phase.suspended.inj hw').symm
  | suspend _ hf => exact absurd hf hcur
  | resume _ _ hphase =>
      rw [hphase] at hw'
      cases hw'
  | finish _ hf => exact absurd hf hcur
  | count hf => exact absurd hf hcur
  | born hf =>
      obtain ⟨ok, hok⟩ := (h f).fresh (by rw [hf])
      rw [hw] at hok
      cases hok

/-- The fibers in the wait list of a call, when they are woken. -/
theorem Effect.wait_of_mem (he : Effect s a s' es ps) (h : Coherent s) {l : Place} (hl : l ≠ .strand)
    (hf : f ∈ s.at l) (hw' : (s'.fibers f).phase = .suspended w) : w.place = some l := by
  obtain ⟨w₀, hw₀, hplace, -⟩ := (h f).of_mem hl hf
  rw [he.wait_eq h hw₀ hw']
  exact hplace

/-- A new fiber is suspended in its start. -/
theorem Effect.wait_new (he : Effect s a s' es ps) (h : Coherent s)
    (hw : (s'.fibers s.fiberCount).phase = .suspended w) : w = .start := by
  obtain ⟨ok, hok⟩ := (h s.fiberCount).fresh le_rfl
  have hcur : s.current ≠ some s.fiberCount := by
    intro hf
    have hrun := (h s.fiberCount).running.mpr hf
    rw [hok] at hrun
    cases hrun
  cases he.turns s.fiberCount with
  | same hphase | interrupt hphase =>
      rw [hphase, hok] at hw
      cases hw
  | suspend _ hf | finish _ hf | count hf => exact absurd hf hcur
  | resume _ hs =>
      rw [hok] at hs
      cases hs
  | born _ hphase =>
      rw [hphase] at hw
      exact (Phase.suspended.inj hw).symm

/-- `INTERRUPTED` is set for the fibers that have been interrupted. -/
structure Flagged (s : State) : Prop where
  flag : ∀ f, (s.fibers f).interrupted = true ↔ .interrupt f ∈ s.log
  lt : ∀ f, .interrupt f ∈ s.log → f < s.fiberCount

theorem exec_flagged (h : Coherent s) (hflag : Flagged s) (hs : exec s a = .ok s') : Flagged s' := by
  obtain ⟨es, ps, he⟩ := exec_effect h hs
  have hold : ∀ {f}, (s'.fibers f).interrupted = (s.fibers f).interrupted →
      ((s'.fibers f).interrupted = true ↔ .interrupt f ∈ s'.log) := by
    intro f heq
    constructor
    · intro hf
      exact he.log_mem ((hflag.flag f).mp (heq ▸ hf))
    · intro hmem
      rcases he.emits_mem hmem with hmem | hnew
      · rw [heq]
        exact (hflag.flag f).mpr hmem
      · cases hnew with
        | interrupt _ _ hf => exact hf
        | release _ _ hno => cases hno
  constructor
  · intro f
    cases he.turns f with
    | same _ _ heq | suspend _ _ _ _ heq | resume _ _ _ _ heq | finish _ _ _ heq | count _ _ heq => exact hold heq
    | interrupt _ _ _ hf hmem =>
        refine ⟨fun _ => ?_, fun _ => hf⟩
        rw [he.log]
        exact List.mem_append_right _ hmem
    | born hf _ hno =>
        refine ⟨fun hyes => ?_, fun hmem => ?_⟩
        · rw [hno] at hyes
          cases hyes
        · rcases he.emits_mem hmem with hmem | hnew
          · exact absurd (hflag.lt f hmem) (by rw [hf]; exact Nat.lt_irrefl _)
          · cases hnew with
            | interrupt _ hlt _ => exact absurd hlt (by rw [hf]; exact Nat.lt_irrefl _)
            | release _ _ hno => cases hno
  · intro f hmem
    refine Nat.lt_of_lt_of_le ?_ (exec_fiberCount h hs)
    rcases he.emits_mem hmem with hmem | hnew
    · exact hflag.lt f hmem
    · cases hnew with
      | interrupt _ hlt _ => exact hlt
      | release _ _ hno => cases hno

theorem flagged_initial : Flagged State.initial where
  flag f := by
    have hno : Event.interrupt f ∉ State.initial.log := by simp [State.initial]
    refine ⟨fun hyes => ?_, fun hmem => absurd hmem hno⟩
    simp only [State.initial] at hyes
    repeat' split at hyes
    all_goals cases hyes
  lt f hmem := by simp [State.initial] at hmem

end

end Emilua.Sched
