import Emilua.Sched.Waiting

/-!
A step moves one fiber, or the fibers of one wait list: a fiber that runs is
put in a place and suspends; a fiber is taken from its place and a resume of it
is posted, or it runs. All other fibers are passed by.
-/
namespace Emilua.Sched

/-- Fiber `f` is put in place `l`. -/
structure Adds (s s' : State) (f : FiberId) (l : Place) : Prop where
  calm : ∀ g, (s'.fibers g).Calm (s.fibers g)
  counts : ∀ l' g, (s'.at l').count g = (s.at l').count g + if l' = l ∧ g = f then 1 else 0
  posts : ∀ p ∈ s'.strand, p ∈ s.strand ∨ p.fiber = f
  current : s'.current = s.current
  count : s.fiberCount ≤ s'.fiberCount

/-- Fiber `f` is taken from place `l`. -/
structure Drops (s s' : State) (f : FiberId) (l : Place) : Prop where
  calm : ∀ g, (s'.fibers g).Calm (s.fibers g)
  counts : ∀ l' g, (s'.at l').count g + (if l' = l ∧ g = f then 1 else 0) = (s.at l').count g
  posts : ∀ p ∈ s'.strand, p ∈ s.strand
  current : s'.current = s.current
  count : s.fiberCount ≤ s'.fiberCount

/-- The state without what has no bearing on who waits where. -/
def State.core (s : State) : State :=
  { s with
    handles := State.initial.handles, locked := State.initial.locked, holders := State.initial.holders
    owner := State.initial.owner, nlocked := State.initial.nlocked, futures := State.initial.futures
    promises := State.initial.promises, isOpen := true, valid := true, log := [] }

section
variable {s s₁ s' : State} {f g : FiberId} {l : Place} {w : Wait}

theorem Passes.of_core (hcore : s'.core = s.core) (g : FiberId) : Passes s s' g := by
  have hfibers : s'.fibers = s.fibers := by
    have hcongr := congrArg State.fibers hcore
    exact hcongr
  have hat : s'.at = s.at := by
    have hcongr := congrArg State.at hcore
    exact hcongr
  have hcurrent : s'.current = s.current := by
    have hcongr := congrArg State.current hcore
    exact hcongr
  have hstrand : s'.strand = s.strand := by
    have hcongr := congrArg State.strand hcore
    exact hcongr
  have hcount : s'.fiberCount = s.fiberCount := by
    have hcongr := congrArg State.fiberCount hcore
    exact hcongr
  exact ⟨hfibers ▸ .refl _, fun l => by rw [hat], fun p hp _ => hstrand ▸ hp, by rw [hcurrent], hcount.ge⟩

theorem Passes.of_adds (h : Adds s s' f l) (hg : g ≠ f) : Passes s s' g where
  calm := h.calm g
  counts l' := by
    rw [h.counts l' g, if_neg (fun hc => hg hc.2), Nat.add_zero]
  posts p hp hpg := by
    rcases h.posts p hp with hold | hnew
    · exact hold
    · exact absurd (hpg.symm.trans hnew) hg
  current := by rw [h.current]
  count := h.count

theorem Passes.of_drops (h : Drops s s' f l) (hg : g ≠ f) : Passes s s' g where
  calm := h.calm g
  counts l' := by
    have hcount := h.counts l' g
    rwa [if_neg (fun hc => hg hc.2), Nat.add_zero] at hcount
  posts p hp _ := h.posts p hp
  current := by rw [h.current]
  count := h.count

theorem State.Home.of_adds (hhome : s.Home f none) (h : Adds s s' f l) : s'.Home f (some l) := by
  intro l'
  rw [h.counts l' f, hhome l', if_neg (by simp), Nat.zero_add]
  simp [eq_comm]

theorem State.Home.of_drops (hhome : s.Home f (some l)) (h : Drops s s' f l) : s'.Home f none := by
  intro l'
  have hcount := h.counts l' f
  rw [hhome l'] at hcount
  rw [if_neg (by simp)]
  by_cases hl : l = l'
  · subst hl
    simp at hcount
    omega
  · have hl' : l' ≠ l := fun heq => hl heq.symm
    simp [hl, hl'] at hcount
    omega

theorem Coherent.of_passes (h : Coherent s) (hp : ∀ g, Passes s s' g) : Coherent s' :=
  fun g => (h g).of_passes (hp g)

theorem Coherent.of_core (h : Coherent s) (hcore : s'.core = s.core) : Coherent s' :=
  h.of_passes (.of_core hcore)

/-! Suspension. -/

theorem State.suspend_fibers (s : State) (f : FiberId) (w : Wait) (i : Interrupter) :
    (s.suspend f w i).fibers =
      Function.update s.fibers f { (s.fibers f).setInterrupter i with phase := .suspended w } := rfl

theorem State.at_suspend (hf : (s.fibers f).phase = .running) (w : Wait) (i : Interrupter) (l : Place) :
    (s.suspend f w i).at l = s.at l := by
  refine State.at_of_update ?_ (State.suspend_fibers s f w i) (fun l hl => ?_) l
  · exact Fiber.waiter_of_joiner (by simp) (by simp [hf]) (by simp)
  · cases l with
    | joiner g => exact absurd rfl (hl g)
    | _ => rfl

theorem passes_suspend (hf : (s.fibers f).phase = .running) (hcur : s.current = some f) (w : Wait)
    (i : Interrupter) (hg : g ≠ f) : Passes s (s.suspend f w i) g where
  calm := by
    rw [State.suspend_fibers, Function.update_of_ne hg]
    exact .refl _
  counts l := by rw [State.at_suspend hf]
  posts _ hp _ := hp
  current := by simp [State.suspend, hcur, hg.symm]
  count := le_rfl

theorem Coherent.park (h : Coherent s) (hf : s.current = some f) (hadd : Adds s s₁ f l) {i : Interrupter}
    (hplace : l = .strand ∨ w.place = some l) (hi : i.fits w = true) (hij : ∀ g, i = .join g → l = .joiner g)
    (hsilent : ∀ p ∈ s₁.strand, p.fiber = f → w.silent = true) : Coherent (s₁.suspend f w i) := by
  have hrun := (h f).running.mpr hf
  have hrun₁ : (s₁.fibers f).phase = .running := (hadd.calm f).1.trans hrun
  have hidle : (s₁.fibers f).interrupter = .none := by
    have hnone := (h f).not_armed (by simp [hrun])
    rcases (hadd.calm f).2 with hi | ⟨hi, -⟩
    · exact hi
    · exact hi.trans hnone
  have hhome := ((h f).home_running hf).of_adds hadd
  have hcur : s₁.current = some f := hadd.current.trans hf
  intro g
  by_cases hg : g = f
  · subst hg
    have hfib : (s₁.suspend g w i).fibers g = { (s₁.fibers g).setInterrupter i with phase := .suspended w } := by
      rw [State.suspend_fibers, Function.update_self]
    have hhome' : (s₁.suspend g w i).Home g (some l) := fun l' => by
      rw [State.at_suspend hrun₁]
      exact hhome l'
    constructor
    · refine ⟨some l, ?_, hhome'⟩
      rw [hfib]
      rcases hplace with rfl | hplace
      · exact .inl rfl
      · exact .inr ⟨l, hplace, rfl⟩
    · rw [hfib]
      simp [State.suspend]
    · rw [hfib]
      simp only [Fiber.setInterrupter]
      split
      · intro hno
        exact absurd hidle hno
      · rename_i hon
        exact fun _ => ⟨by simpa using hon, w, rfl, hi⟩
    · intro g'
      rw [hfib]
      simp only [Fiber.setInterrupter]
      split
      · simp only [hidle]
        exact nofun
      · intro hi'
        have hmem : g ∈ s₁.at l := List.count_pos_iff.mp (by
          rw [hhome l]
          simp)
        rw [State.at_suspend hrun₁, ← hij g' hi']
        exact hmem
    · intro p hp hpg _ w' hw'
      rw [hfib] at hw'
      cases hw'
      exact hsilent p hp hpg
    · intro hle
      obtain ⟨ok, hok⟩ := (h g).fresh (hadd.count.trans hle)
      rw [hrun] at hok
      cases hok
  · exact (h g).of_passes ((Passes.of_adds hadd hg).trans (passes_suspend hrun₁ hcur w i hg))

/-! Wake-ups. -/

theorem passes_post (s : State) (hg : g ≠ f) (a : Args) (k : Bool) : Passes s (s.post f a k) g where
  calm := .refl _
  counts l := by
    rw [State.at_post]
    split <;> simp [hg.symm]
  posts p hp hpg := by
    rcases List.mem_append.mp hp with hold | hnew
    · exact hold
    · rw [List.mem_singleton] at hnew
      rw [hnew] at hpg
      exact absurd hpg.symm hg
  current := Iff.rfl
  count := le_rfl

theorem adds_post (s : State) (f : FiberId) (a : Args) (k : Bool) : Adds s (s.post f a k) f .strand where
  calm _ := .refl _
  counts l g := by
    rw [State.at_post]
    by_cases hl : l = .strand
    · subst hl
      by_cases hg : g = f
      · simp [hg]
      · simp [hg, Ne.symm hg]
    · simp [hl]
  posts p hp := by
    rcases List.mem_append.mp hp with hold | hnew
    · exact .inl hold
    · rw [List.mem_singleton] at hnew
      exact .inr (by rw [hnew])
  current := rfl
  count := le_rfl

/-- A fiber that has left its wait list is posted. -/
theorem Settled.woken (h : Settled s f) (hl : l ≠ .strand) (hf : f ∈ s.at l)
    (hcalm : (s'.fibers f).Calm (s.fibers f)) (hhome : s'.Home f (some .strand))
    (hj : ∀ g, l = .joiner g → (s'.fibers f).interrupter = .none)
    (hsilent : ∀ p ∈ s'.strand, p.fiber = f → p.skipClear = true → ∀ w : Wait, w.place = some l → w.silent = true)
    (hcur : s'.current = some f ↔ s.current = some f) (hcount : s.fiberCount ≤ s'.fiberCount) :
    Settled s' f := by
  obtain ⟨w, hw, hplace, -⟩ := h.of_mem hl hf
  have hphase : (s'.fibers f).phase = .suspended w := hcalm.1.trans hw
  constructor
  · exact ⟨some .strand, hphase ▸ .inl rfl, hhome⟩
  · rw [hcalm.1, hcur]
    exact h.running
  · intro hi
    rcases hcalm.2 with hnone | ⟨heq, hdis⟩
    · exact absurd hnone hi
    · rw [hdis, heq, hcalm.1]
      exact h.armed (heq ▸ hi)
  · intro g hg
    rcases hcalm.2 with hnone | ⟨heq, -⟩
    · rw [hnone] at hg
      cases hg
    · obtain ⟨-, w', hw', hfits⟩ := h.armed (by rw [← heq, hg]; exact nofun)
      rw [hw] at hw'
      cases hw'
      have hw : w = .join g := by
        rw [← heq, hg] at hfits
        cases w <;> simp_all [Interrupter.fits]
      subst hw
      cases hplace
      rw [hj g rfl] at hg
      cases hg
  · intro p hp hpf hskip w' hw'
    rw [hphase] at hw'
    cases hw'
    exact hsilent p hp hpf hskip w hplace
  · intro hle
    rw [hcalm.1]
    exact h.fresh (hcount.trans hle)

theorem Coherent.wake (h : Coherent s) (hl : l ≠ .strand) (hf : f ∈ s.at l) (hdrop : Drops s s₁ f l)
    (hj : ∀ g, l = .joiner g → (s₁.fibers f).interrupter = .none) (a : Args) (k : Bool)
    (hk : k = true → ∀ w : Wait, w.place = some l → w.silent = true) : Coherent (s₁.post f a k) := by
  obtain ⟨-, -, -, hhome⟩ := (h f).of_mem hl hf
  have hhome' := (hhome.of_drops hdrop).of_adds (adds_post s₁ f a k)
  intro g
  by_cases hg : g = f
  · subst hg
    refine (h g).woken hl hf (hdrop.calm g) hhome' hj ?_ (by rw [← hdrop.current]; rfl) hdrop.count
    intro p hp hpg hskip
    rcases List.mem_append.mp hp with hold | hnew
    · have hmem : g ∈ s₁.at .strand := List.mem_map.mpr ⟨p, hold, hpg⟩
      exact absurd hmem ((hhome.of_drops hdrop).not_mem .strand)
    · rw [List.mem_singleton] at hnew
      rw [hnew] at hskip
      exact hk hskip
  · exact (h g).of_passes ((Passes.of_drops hdrop hg).trans (passes_post s₁ hg a k))

theorem Coherent.wakeAll (h : Coherent s) (q : Queue) (o : Outcome) : Coherent (s.wakeAll q o) := by
  intro g
  by_cases hg : g ∈ s.queues q
  · obtain ⟨-, -, -, hhome⟩ := (h g).of_mem (l := .queue q) nofun hg
    refine (h g).woken (l := .queue q) nofun hg (.refl _) ?_ nofun ?_ Iff.rfl le_rfl
    · intro l
      have hq : (s.queues q).count g = 1 := (hhome (.queue q)).trans (if_pos rfl)
      have hs := hhome l
      rw [State.at_wakeAll]
      split
      · rename_i hl
        subst hl
        rw [List.count_append, hs, hq]
        simp
      · split
        · simp_all
        · rename_i hl hlq
          rw [hs]
          simp [Ne.symm hl, Ne.symm hlq]
    · intro p hp hpg hskip
      rcases List.mem_append.mp hp with hold | hnew
      · have hmem : g ∈ s.at .strand := List.mem_map.mpr ⟨p, hold, hpg⟩
        have hcount := hhome .strand
        rw [if_neg (by simp)] at hcount
        exact absurd (List.count_pos_iff.mpr hmem) (by omega)
      · obtain ⟨f, -, rfl⟩ := List.mem_map.mp hnew
        cases hskip
  · refine (h g).of_passes ⟨.refl _, fun l => ?_, fun p hp hpg => ?_, Iff.rfl, le_rfl⟩
    · rw [State.at_wakeAll]
      split
      · rw [List.count_append, List.count_eq_zero.mpr hg, Nat.add_zero]
      · split
        · rename_i hl
          subst hl
          exact (List.count_eq_zero.mpr hg).symm
        · rfl
    · rcases List.mem_append.mp hp with hold | hnew
      · exact hold
      · obtain ⟨f, hf, rfl⟩ := List.mem_map.mp hnew
        exact absurd (hpg ▸ hf) hg

/-! Resumption. -/

theorem State.run_fibers (s : State) (f : FiberId) (w : Wait) (o : Outcome) (k : Bool) :
    (s.run f w o k).fibers = Function.update s.fibers f
      { if k then s.fibers f else (s.fibers f).setInterrupter .none with phase := .running } := rfl

theorem State.at_run (hf : (s.fibers f).phase = .suspended w) (o : Outcome) (k : Bool) (l : Place) :
    (s.run f w o k).at l = s.at l := by
  refine State.at_of_update ?_ (State.run_fibers s f w o k) (fun l hl => ?_) l
  · exact Fiber.waiter_of_joiner (by cases k <;> simp) (by simp [hf]) (by simp)
  · cases l with
    | joiner g => exact absurd rfl (hl g)
    | _ => rfl

theorem passes_run (hf : (s.fibers f).phase = .suspended w) (hcur : s.current = none) (o : Outcome)
    (k : Bool) (hg : g ≠ f) : Passes s (s.run f w o k) g where
  calm := by
    rw [State.run_fibers, Function.update_of_ne hg]
    exact .refl _
  counts l := by rw [State.at_run hf]
  posts _ hp _ := hp
  current := by simp [State.run, hcur, hg.symm]
  count := le_rfl

theorem settled_run (hf : (s.fibers f).phase = .suspended w) (hhome : s.Home f none) (o : Outcome) (k : Bool)
    (hclear : (s.fibers f).interrupter ≠ .none → (s.fibers f).disabled.on = false ∧ k = false)
    (hlt : f < s.fiberCount) : Settled (s.run f w o k) f := by
  have hfib : (s.run f w o k).fibers f =
      { if k then s.fibers f else (s.fibers f).setInterrupter .none with phase := .running } := by
    rw [State.run_fibers, Function.update_self]
  have hnone : ((s.run f w o k).fibers f).interrupter = .none := by
    by_cases hi : (s.fibers f).interrupter = .none
    · rw [hfib]
      simp only [Fiber.setInterrupter]
      repeat' split
      all_goals simp [hi]
    · obtain ⟨hdis, rfl⟩ := hclear hi
      rw [hfib]
      simp [Fiber.setInterrupter, hdis]
  constructor
  · refine ⟨none, by rw [hfib]; rfl, fun l => ?_⟩
    rw [State.at_run hf]
    exact hhome l
  · rw [hfib]
    simp [State.run]
  · intro hi
    exact absurd hnone hi
  · intro g hg
    rw [hnone] at hg
    cases hg
  · intro p _ _ _ w' hw'
    rw [hfib] at hw'
    cases hw'
  · intro hle
    exact absurd hlt (Nat.not_lt.mpr hle)

theorem Settled.lt_fiberCount (h : Settled s f) (hf : ∀ ok, (s.fibers f).phase ≠ .finished ok) :
    f < s.fiberCount := by
  by_contra hle
  obtain ⟨ok, hok⟩ := h.fresh (Nat.le_of_not_lt hle)
  exact hf ok hok

/-- A fiber is taken from its place and runs. -/
theorem Coherent.resume (h : Coherent s) (hf : (s.fibers f).phase = .suspended w) (hhome : s.Home f (some l))
    (hdrop : Drops s s₁ f l) (hcur : s.current = none) (o : Outcome) (k : Bool)
    (hk : k = true → w.silent = true) : Coherent (s₁.run f w o k) := by
  have hf₁ : (s₁.fibers f).phase = .suspended w := (hdrop.calm f).1.trans hf
  have hlt := (h f).lt_fiberCount (by simp [hf])
  intro g
  by_cases hg : g = f
  · subst hg
    refine settled_run hf₁ (hhome.of_drops hdrop) o k ?_ (hlt.trans_le hdrop.count)
    intro hi
    rcases (hdrop.calm g).2 with hnone | ⟨heq, hdis⟩
    · exact absurd hnone hi
    · obtain ⟨hon, w', hw', hfits⟩ := (h g).armed (heq ▸ hi)
      refine ⟨hdis ▸ hon, ?_⟩
      rw [hf] at hw'
      cases hw'
      -- the interrupter of a silent wait is not set
      by_contra hkt
      have hsil := hk (by simpa using hkt)
      rw [heq] at hi
      revert hi hfits hsil
      cases (s.fibers g).interrupter <;> cases w <;> simp +contextual [Interrupter.fits, Wait.silent]
  · exact (h g).of_passes
      ((Passes.of_drops hdrop hg).trans (passes_run hf₁ (hdrop.current.trans hcur) o k hg))

/-! The places a fiber can be put in or taken from. -/

theorem Adds.of_perm (hfibers : s'.fibers = s.fibers) (hstrand : s'.strand = s.strand)
    (hcur : s'.current = s.current) (hcount : s'.fiberCount = s.fiberCount)
    (hat : ∀ l', l' ≠ l → s'.at l' = s.at l') (hperm : (s'.at l).Perm (f :: s.at l)) : Adds s s' f l where
  calm g := hfibers ▸ .refl _
  counts l' g := by
    by_cases hl : l' = l
    · subst hl
      rw [hperm.count_eq g, List.count_cons]
      by_cases hg : g = f
      · simp [hg]
      · simp [hg, Ne.symm hg]
    · rw [hat l' hl]
      simp [hl]
  posts p hp := .inl (hstrand ▸ hp)
  current := hcur
  count := hcount.ge

theorem Drops.of_perm (hfibers : s'.fibers = s.fibers) (hposts : ∀ p ∈ s'.strand, p ∈ s.strand)
    (hcur : s'.current = s.current) (hcount : s'.fiberCount = s.fiberCount)
    (hat : ∀ l', l' ≠ l → s'.at l' = s.at l') (hperm : (s.at l).Perm (f :: s'.at l)) : Drops s s' f l where
  calm g := hfibers ▸ .refl _
  counts l' g := by
    by_cases hl : l' = l
    · subst hl
      rw [hperm.count_eq g, List.count_cons]
      by_cases hg : g = f
      · simp [hg]
      · simp [hg, Ne.symm hg]
    · rw [hat l' hl]
      simp [hl]
  posts := hposts
  current := hcur
  count := hcount.ge

theorem adds_setQueue (s : State) (f : FiberId) (q : Queue) :
    Adds s (s.setQueue q (s.queues q ++ [f])) f (.queue q) :=
  .of_perm rfl rfl rfl rfl (fun l hl => by rw [State.at_setQueue, if_neg hl]) (by
    rw [State.at_setQueue, if_pos rfl]
    exact List.perm_append_singleton f (s.queues q))

theorem adds_setOps (s : State) (x : Op) : Adds s (s.setOps (s.ops ++ [x])) x.fiber .io :=
  .of_perm rfl rfl rfl rfl (fun l hl => by rw [State.at_setOps, if_neg hl]) (by
    rw [State.at_setOps, if_pos rfl, List.map_append]
    exact List.perm_append_singleton x.fiber (s.ops.map Op.fiber))

theorem adds_setSends (s : State) (x : FiberId × Bool) : Adds s (s.setSends (s.sends ++ [x])) x.1 .send :=
  .of_perm rfl rfl rfl rfl (fun l hl => by rw [State.at_setSends, if_neg hl]) (by
    rw [State.at_setSends, if_pos rfl, List.map_append]
    exact List.perm_append_singleton x.1 (s.sends.map Prod.fst))

theorem adds_setReceiver (hs : s.recvFiber = none) (f : FiberId) :
    Adds s (s.setReceiver (some f)) f .receive :=
  .of_perm rfl rfl rfl rfl (fun l hl => by rw [State.at_setReceiver, if_neg hl]) (by
    rw [State.at_setReceiver, if_pos rfl]
    simp [State.at, hs])

theorem drops_setQueue {q : Queue} {xs : List FiberId} (hperm : (s.queues q).Perm (f :: xs)) :
    Drops s (s.setQueue q xs) f (.queue q) :=
  .of_perm rfl (fun _ hp => hp) rfl rfl (fun l hl => by rw [State.at_setQueue, if_neg hl]) (by
    rw [State.at_setQueue, if_pos rfl]
    exact hperm)

theorem drops_setOps {i : Nat} {x : Op} (hx : s.ops[i]? = some x) :
    Drops s (s.setOps (s.ops.eraseIdx i)) x.fiber .io :=
  .of_perm rfl (fun _ hp => hp) rfl rfl (fun l hl => by rw [State.at_setOps, if_neg hl]) (by
    rw [State.at_setOps, if_pos rfl]
    obtain ⟨hi, rfl⟩ := List.getElem?_eq_some_iff.mp hx
    exact ((List.getElem_cons_eraseIdx_perm hi).symm).map Op.fiber)

theorem drops_setSends {i : Nat} {x : FiberId × Bool} (hx : s.sends[i]? = some x) :
    Drops s (s.setSends (s.sends.eraseIdx i)) x.1 .send :=
  .of_perm rfl (fun _ hp => hp) rfl rfl (fun l hl => by rw [State.at_setSends, if_neg hl]) (by
    rw [State.at_setSends, if_pos rfl]
    obtain ⟨hi, rfl⟩ := List.getElem?_eq_some_iff.mp hx
    exact ((List.getElem_cons_eraseIdx_perm hi).symm).map Prod.fst)

theorem drops_setReceiver (hs : s.recvFiber = some f) : Drops s (s.setReceiver none) f .receive :=
  .of_perm rfl (fun _ hp => hp) rfl rfl (fun l hl => by rw [State.at_setReceiver, if_neg hl]) (by
    rw [State.at_setReceiver, if_pos rfl]
    simp [State.at, hs])

theorem drops_strand {p : Post} {ps : List Post} (hs : s.strand = p :: ps) :
    Drops s { s with strand := ps } p.fiber .strand :=
  .of_perm rfl (fun q hq => by rw [hs]; exact List.mem_cons_of_mem p hq) rfl rfl
    (fun l hl => by cases l <;> first | rfl | exact absurd rfl hl) (by simp [State.at, hs])

/-- A change of one fiber that leaves its waiter alone. -/
theorem passes_setFiber {k : Fiber → Fiber} (hk : (k (s.fibers f)).Calm (s.fibers f))
    (hw : (k (s.fibers f)).waiter = (s.fibers f).waiter) (g : FiberId) : Passes s (s.setFiber f k) g where
  calm := by
    by_cases hg : g = f
    · subst hg
      rw [State.setFiber_fibers_self]
      exact hk
    · rw [State.setFiber_fibers_ne s hg]
      exact .refl _
  counts l := by rw [State.at_setFiber hw]
  posts _ hp _ := hp
  current := Iff.rfl
  count := le_rfl

theorem State.at_setFiber_joiner {k : Fiber → Fiber} (l : Place) :
    (s.setFiber f k).at l = if l = .joiner f then (k (s.fibers f)).waiter else s.at l := by
  cases l with
  | joiner g =>
      by_cases hg : g = f
      · subst hg
        rw [if_pos rfl, State.at, State.setFiber_fibers_self]
      · rw [if_neg (by simpa using hg)]
        simp only [State.at, State.setFiber_fibers_ne s hg]
  | _ => rfl

theorem calm_setFiber {k : Fiber → Fiber} (hk : (k (s.fibers f)).Calm (s.fibers f)) (g : FiberId) :
    ((s.setFiber f k).fibers g).Calm (s.fibers g) := by
  by_cases hg : g = f
  · subst hg
    rw [State.setFiber_fibers_self]
    exact hk
  · rw [State.setFiber_fibers_ne s hg]
    exact .refl _

theorem adds_joiner {k : Fiber → Fiber} (hk : (k (s.fibers g)).Calm (s.fibers g))
    (hw : (s.fibers g).waiter = []) (hw' : (k (s.fibers g)).waiter = [f]) :
    Adds s (s.setFiber g k) f (.joiner g) where
  calm := calm_setFiber hk
  counts l h := by
    rw [State.at_setFiber_joiner]
    by_cases hl : l = .joiner g
    · subst hl
      by_cases hh : h = f
      · simp [State.at, hw, hw', hh]
      · simp [State.at, hw, hw', hh, Ne.symm hh]
    · simp [hl]
  posts _ hp := .inl hp
  current := rfl
  count := le_rfl

theorem drops_joiner {k : Fiber → Fiber} (hk : (k (s.fibers g)).Calm (s.fibers g))
    (hw : (s.fibers g).waiter = [f]) (hw' : (k (s.fibers g)).waiter = []) :
    Drops s (s.setFiber g k) f (.joiner g) where
  calm := calm_setFiber hk
  counts l h := by
    rw [State.at_setFiber_joiner]
    by_cases hl : l = .joiner g
    · subst hl
      by_cases hh : h = f
      · simp [State.at, hw, hw', hh]
      · simp [State.at, hw, hw', hh, Ne.symm hh]
    · simp [hl]
  posts _ hp := hp
  current := rfl
  count := le_rfl

end

end Emilua.Sched
