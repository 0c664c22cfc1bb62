import Emilua.Windows.Stdin

/-!
Reads of standard input are started in order and resumed once, and cancelling one
does not hit another.
-/
namespace Emilua.Windows.Stdin
open Transition

/-- Everything that a step can do. -/
inductive Moves (s : State) : State → Prop where
  | readSome (f : Fiber) (hfree : s.strand = .free) (hnone : s.suspended f = none) :
      Moves s (s.readSome f)
  | found (r pre post) (hfree : s.strand = .free) (hin : s.suspended r.fiber = some r)
      (hqueue : s.queue = pre ++ r :: post) :
      Moves s { s with queue := pre ++ post, posted := s.posted ++ [(r, .interrupted)] }
  | missed (r) (hfree : s.strand = .free) (hin : s.suspended r.fiber = some r) :
      Moves s { s with strand := .locked r }
  | request (r) (hlocked : s.strand = .locked r) (hjob : s.currentJob = some r.fiber) :
      Moves s { s with currentJob := none, strand := .requested r }
  | unlock (r) (hlocked : s.strand = .locked r) : Moves s { s with strand := .free }
  | abort (r r' flag) (hrequested : s.strand = .requested r) (hreading : s.reader = .reading r' flag) :
      Moves s { s with
        reader := .reading r' true, strand := .cancelled r, log := .cancelled r (some r') :: s.log }
  | abortNothing (r) (hrequested : s.strand = .requested r) :
      Moves s { s with strand := .cancelled r, log := .cancelled r none :: s.log }
  | leave (r) (hcancelled : s.strand = .cancelled r) (hjob : s.currentJob = some r.fiber) :
      Moves s { s with currentJob := none, strand := .free, log := .left r :: s.log }
  | again (r) (hcancelled : s.strand = .cancelled r) : Moves s { s with strand := .requested r }
  | resume (r result rest) (hfree : s.strand = .free) (hposted : s.posted = (r, result) :: rest) :
      Moves s (s.resume r result rest)
  | sleep (vmCtx) (hfree : s.strand = .free) (hreader : s.reader = .starting ∨ s.reader = .woken)
      (hqueue : s.queue = []) : Moves s { s with reader := .asleep, vmCtx := vmCtx }
  | take (r queue) (hfree : s.strand = .free) (hreader : s.reader = .starting ∨ s.reader = .woken)
      (hqueue : s.queue = r :: queue) :
      Moves s { s with reader := .taken r, currentJob := some r.fiber, queue := queue }
  | wake (hasleep : s.reader = .asleep) : Moves s { s with reader := .woken }
  | startRead (r) (htaken : s.reader = .taken r) :
      Moves s { s with reader := .reading r false, log := .started r :: s.log }
  | endRead (r flag result) (hreading : s.reader = .reading r flag) :
      Moves s { s with reader := .ended r result, log := .ended r :: s.log }
  | release (r result) (hended : s.reader = .ended r result) (hjob : s.currentJob = some r.fiber) :
      Moves s { s with currentJob := none, reader := .answered r result }
  | deny (r result) (hended : s.reader = .ended r result) (hjob : s.currentJob ≠ some r.fiber) :
      Moves s { s with reader := .denied r result }
  | acknowledge (r result) (hdenied : s.reader = .denied r result) :
      Moves s { s with reader := .answered r result, currentJob := some r.fiber }
  | post (r result) (hanswered : s.reader = .answered r result) :
      Moves s { s with reader := .starting, posted := s.posted ++ [(r, result)] }

def Reader.job? : Reader → Option Read
  | .taken r | .reading r _ | .ended r _ => some r
  | _ => none

/-- The read that the thread has taken and not posted yet. -/
def Reader.read? : Reader → Option Read
  | .denied r _ | .answered r _ => some r
  | reader => reader.job?

/-- The read that the thread has taken and not started. -/
def Reader.taken? : Reader → Option Read
  | .taken r => some r
  | _ => none

/-- A new read wakes the thread when it is asleep. -/
theorem State.readSome_reader (s : State) (f : Fiber) :
    (s.readSome f).reader = s.reader ∨ s.reader = .asleep ∧ (s.readSome f).reader = .woken := by
  unfold State.readSome
  dsimp only
  split
  · rename_i hasleep
    exact .inr ⟨beq_iff_eq.mp (Bool.and_eq_true_iff.mp hasleep).2, rfl⟩
  · exact .inl rfl

def State.live (s : State) : List Read := s.queue ++ (s.reader.read?.toList ++ s.posted.map Prod.fst)

/-- A fiber in `read_some` is in the queue, with the thread or about to be
resumed, and in one place only. -/
structure Tracked (s : State) : Prop where
  nodup : s.live.Nodup
  suspended : ∀ r ∈ s.live, s.suspended r.fiber = some r
  fresh : ∀ f r, s.suspended f = some r → r.fiber = f ∧ r.id < s.next
  done : ∀ r ∈ resumed s.log, r.id < s.next ∧ s.suspended r.fiber ≠ some r
  once : (resumed s.log).Nodup

theorem moves_of_exec {s s' : State} {a : Action} (ht : Tracked s) (h : exec s a = .ok s') : Moves s s' := by
  cases a with
  | readSome f =>
      simp only [exec] at h
      split at h
      · rename_i hok
        cases h
        exact .readSome f hok.1 hok.2
      · cases h
  | interrupt f =>
      simp only [exec] at h
      split at h
      · rename_i r hfree hf
        cases h
        have hfiber := (ht.fresh f r hf).1
        subst hfiber
        unfold State.interrupt
        split
        · rename_i hany
          obtain ⟨x, hx, hxr⟩ := List.any_eq_true.mp hany
          obtain ⟨r', pre, post, -, hr', hqueue, herase⟩ := @List.exists_of_eraseP _ (·.fiber == r.fiber) _ _ hx hxr
          -- the fiber is suspended in one read only
          have hlive : r' ∈ s.live := by
            unfold State.live
            rw [hqueue]
            simp
          have hsame : r' = r := by
            have hr := ht.suspended r' hlive
            rw [beq_iff_eq.mp hr', hf] at hr
            exact (Option.some.inj hr).symm
          subst hsame
          rw [herase]
          exact .found r' pre post hfree hf hqueue
        · exact .missed r hfree hf
      · cases h
  | tryCancel =>
      simp only [exec] at h
      split at h
      · rename_i r hlocked
        cases h
        unfold State.tryCancel
        split
        · rename_i hjob
          exact .request r hlocked hjob
        · exact .unlock r hlocked
      · cases h
  | cancelSynchronousIo =>
      simp only [exec] at h
      split at h
      · rename_i r hrequested
        cases h
        unfold State.cancelSynchronousIo
        split
        · rename_i r' flag hreading
          exact .abort r r' flag hrequested hreading
        · exact .abortNothing r hrequested
      · cases h
  | retry spurious =>
      simp only [exec] at h
      split at h
      · rename_i r hcancelled
        cases h
        unfold State.retry
        split
        · rename_i hjob
          exact .leave r hcancelled hjob.2
        · exact .again r hcancelled
      · cases h
  | resume =>
      simp only [exec] at h
      split at h
      · rename_i r result rest hfree hposted
        cases h
        exact .resume r result rest hfree hposted
      · cases h
  | enter =>
      simp only [exec] at h
      split at h
      · rename_i hok
        cases h
        unfold State.enter
        split
        · rename_i hqueue
          exact .sleep _ hok.1 hok.2 hqueue
        · rename_i r queue hqueue
          exact .take r queue hok.1 hok.2 hqueue
      · cases h
  | wake =>
      simp only [exec] at h
      split at h
      · rename_i hasleep
        cases h
        exact .wake hasleep
      · cases h
  | startRead =>
      simp only [exec] at h
      split at h
      · rename_i r htaken
        cases h
        exact .startRead r htaken
      · cases h
  | endRead ec n =>
      simp only [exec] at h
      split at h
      · rename_i r flag hreading
        cases h
        exact .endRead r flag _ hreading
      · cases h
  | release =>
      simp only [exec] at h
      split at h
      · rename_i r result hended
        cases h
        unfold State.release
        split
        · rename_i hjob
          exact .release r result hended hjob
        · rename_i hjob
          exact .deny r result hended hjob
      · cases h
  | acknowledge =>
      simp only [exec] at h
      split at h
      · rename_i r result hdenied
        cases h
        exact .acknowledge r result hdenied
      · cases h
  | post =>
      simp only [exec] at h
      split at h
      · rename_i r result hanswered
        cases h
        exact .post r result hanswered
      · cases h

/-- A step that adds no read, resumes none and keeps those that are on their way. -/
theorem Tracked.of_perm {s s' : State} (h : Tracked s) (hlive : s'.live.Perm s.live)
    (hsuspended : s'.suspended = s.suspended) (hnext : s'.next = s.next)
    (hresumed : resumed s'.log = resumed s.log) : Tracked s' where
  nodup := hlive.nodup_iff.mpr h.nodup
  suspended r hr := by
    rw [hsuspended]
    exact h.suspended r (hlive.mem_iff.mp hr)
  fresh f r hf := by
    rw [hsuspended] at hf
    rw [hnext]
    exact h.fresh f r hf
  done r hr := by
    rw [hresumed] at hr
    rw [hsuspended, hnext]
    exact h.done r hr
  once := by
    rw [hresumed]
    exact h.once

theorem Tracked.readSome {s : State} (h : Tracked s) {f : Fiber} (hnone : s.suspended f = none) :
    Tracked (s.readSome f) := by
  have hread : (s.readSome f).reader.read? = s.reader.read? := by
    rcases s.readSome_reader f with hsame | ⟨hasleep, hwoken⟩
    · rw [hsame]
    · rw [hasleep, hwoken]
      rfl
  have hlive : (s.readSome f).live.Perm (⟨s.next, f⟩ :: s.live) := by
    unfold State.live
    rw [hread]
    simp only [State.readSome]
    rw [List.append_assoc]
    exact List.perm_middle
  have hother : ∀ r ∈ s.live, r.fiber ≠ f := by
    rintro r hr rfl
    rw [h.suspended r hr] at hnone
    cases hnone
  refine ⟨hlive.nodup_iff.mpr (List.nodup_cons.mpr ⟨fun hin => hother _ hin rfl, h.nodup⟩), ?_, ?_, ?_, h.once⟩
  · intro r hr
    change Function.update s.suspended f (some ⟨s.next, f⟩) r.fiber = some r
    rcases List.mem_cons.mp (hlive.mem_iff.mp hr) with rfl | hr
    · exact Function.update_self ..
    · rw [Function.update_of_ne (hother r hr)]
      exact h.suspended r hr
  · intro g r hg
    change Function.update s.suspended f (some ⟨s.next, f⟩) g = some r at hg
    change r.fiber = g ∧ r.id < s.next + 1
    by_cases heq : g = f
    · rw [heq, Function.update_self] at hg
      rw [← Option.some.inj hg, heq]
      exact ⟨rfl, Nat.lt_succ_self _⟩
    · rw [Function.update_of_ne heq] at hg
      exact ⟨(h.fresh g r hg).1, Nat.lt_succ_of_lt (h.fresh g r hg).2⟩
  · intro r hr
    change r.id < s.next + 1 ∧ Function.update s.suspended f (some ⟨s.next, f⟩) r.fiber ≠ some r
    obtain ⟨hid, hsuspended⟩ := h.done r hr
    refine ⟨Nat.lt_succ_of_lt hid, ?_⟩
    by_cases heq : r.fiber = f
    · rw [heq, Function.update_self]
      intro hsame
      rw [← Option.some.inj hsame] at hid
      exact Nat.lt_irrefl _ hid
    · rw [Function.update_of_ne heq]
      exact hsuspended

theorem Tracked.resume {s : State} (h : Tracked s) {r : Read} {result : Result} {rest : List (Read × Result)}
    (hposted : s.posted = (r, result) :: rest) : Tracked (s.resume r result rest) := by
  have hlive : s.live.Perm (r :: (s.resume r result rest).live) := by
    unfold State.live
    rw [hposted]
    simp only [State.resume, List.map_cons]
    rw [← List.append_assoc, ← List.append_assoc]
    exact List.perm_middle
  obtain ⟨hnot, hnodup⟩ := List.nodup_cons.mp (hlive.nodup_iff.mp h.nodup)
  have hin : s.suspended r.fiber = some r := h.suspended r (hlive.mem_iff.mpr (List.mem_cons_self ..))
  refine ⟨hnodup, ?_, ?_, ?_, ?_⟩
  · intro r' hr'
    change Function.update s.suspended r.fiber none r'.fiber = some r'
    have hsuspended := h.suspended r' (hlive.mem_iff.mpr (List.mem_cons_of_mem _ hr'))
    rw [Function.update_of_ne, hsuspended]
    intro heq
    rw [heq, hin] at hsuspended
    rw [Option.some.inj hsuspended] at hnot
    exact hnot hr'
  · intro g r' hg
    change Function.update s.suspended r.fiber none g = some r' at hg
    by_cases heq : g = r.fiber
    · rw [heq, Function.update_self] at hg
      cases hg
    · rw [Function.update_of_ne heq] at hg
      exact h.fresh g r' hg
  · intro r' hr'
    change r'.id < s.next ∧ Function.update s.suspended r.fiber none r'.fiber ≠ some r'
    rcases List.mem_cons.mp hr' with rfl | hr'
    · rw [Function.update_self]
      exact ⟨(h.fresh _ _ hin).2, nofun⟩
    · obtain ⟨hid, hsuspended⟩ := h.done r' hr'
      refine ⟨hid, ?_⟩
      by_cases heq : r'.fiber = r.fiber
      · rw [heq, Function.update_self]
        exact nofun
      · rw [Function.update_of_ne heq]
        exact hsuspended
  · exact List.nodup_cons.mpr ⟨fun hold => (h.done r hold).2 hin, h.once⟩

theorem Moves.tracked {s s' : State} (hmoves : Moves s s') (h : Tracked s) : Tracked s' := by
  cases hmoves with
  | readSome f hfree hnone => exact h.readSome hnone
  | resume r result rest hfree hposted => exact h.resume hposted
  | found r pre post hfree hin hqueue =>
      refine h.of_perm ?_ rfl rfl rfl
      unfold State.live
      rw [hqueue, List.perm_iff_count]
      intro x
      simp only [List.map_append, List.count_append, List.count_cons, List.map_cons, List.map_nil, List.count_nil]
      omega
  | missed | request | unlock | again => exact h.of_perm (.refl _) rfl rfl rfl
  | abortNothing | leave => exact h.of_perm (.refl _) rfl rfl rfl
  | abort r r' flag hrequested hreading =>
      refine h.of_perm ?_ rfl rfl rfl
      unfold State.live
      rw [hreading]
      exact .refl _
  | sleep vmCtx hfree hreader hqueue =>
      refine h.of_perm ?_ rfl rfl rfl
      unfold State.live
      rcases hreader with hreader | hreader <;> rw [hreader] <;> exact .refl _
  | take r queue hfree hreader hqueue =>
      refine h.of_perm ?_ rfl rfl rfl
      unfold State.live
      rw [hqueue]
      rcases hreader with hreader | hreader <;> rw [hreader] <;> exact List.perm_middle
  | wake hasleep =>
      refine h.of_perm ?_ rfl rfl rfl
      unfold State.live
      rw [hasleep]
      exact .refl _
  | startRead r hreader | endRead r flag result hreader | release r result hreader | deny r result hreader
  | acknowledge r result hreader =>
      refine h.of_perm ?_ rfl rfl rfl
      unfold State.live
      rw [hreader]
      exact .refl _
  | post r result hanswered =>
      refine h.of_perm ?_ rfl rfl rfl
      unfold State.live
      rw [hanswered, List.perm_iff_count]
      intro x
      simp only [Reader.read?, Reader.job?, Option.toList_some, Option.toList_none, List.map_append,
        List.count_append, List.map_cons, List.map_nil, List.nil_append, List.singleton_append,
        List.count_cons, List.count_nil]
      omega

/-- The reads in the order in which they will start and have started, the latest
one first. -/
def State.line (s : State) : List Read :=
  s.queue.reverse ++ (s.reader.taken?.toList ++ started s.log)

def Ordered (s : State) : Prop := s.line.Sublist (queued s.log)

theorem Ordered.of_eq {s s' : State} (h : Ordered s) (hline : s'.line = s.line)
    (hqueued : queued s'.log = queued s.log) : Ordered s' := by
  unfold Ordered
  rw [hline, hqueued]
  exact h

theorem Moves.ordered {s s' : State} (hmoves : Moves s s') (h : Ordered s) : Ordered s' := by
  cases hmoves with
  | readSome f hfree hnone =>
      have htaken : (s.readSome f).reader.taken? = s.reader.taken? := by
        rcases s.readSome_reader f with hsame | ⟨hasleep, hwoken⟩
        · rw [hsame]
        · rw [hasleep, hwoken]
          rfl
      have hline : (s.readSome f).line = ⟨s.next, f⟩ :: s.line := by
        unfold State.line
        rw [htaken]
        simp only [State.readSome, List.reverse_append, List.reverse_singleton, List.cons_append]
        rfl
      unfold Ordered
      rw [hline]
      exact h.cons_cons _
  | found r pre post hfree hin hqueue =>
      refine List.Sublist.trans ?_ h
      unfold State.line
      rw [hqueue]
      refine List.Sublist.append (List.reverse_sublist.mpr ?_) (.refl _)
      exact List.Sublist.append (.refl _) (List.sublist_cons_self r post)
  | missed | request | unlock | again => exact h.of_eq rfl rfl
  | abortNothing | leave => exact h.of_eq rfl rfl
  | resume => exact h.of_eq rfl rfl
  | abort r r' flag hrequested hreader =>
      refine h.of_eq ?_ rfl
      unfold State.line
      rw [hreader]
      rfl
  | sleep vmCtx hfree hreader hqueue =>
      refine h.of_eq ?_ rfl
      unfold State.line
      rcases hreader with hreader | hreader <;> rw [hreader] <;> rfl
  | take r queue hfree hreader hqueue =>
      refine h.of_eq ?_ rfl
      unfold State.line
      rw [hqueue, List.reverse_cons, List.append_assoc]
      rcases hreader with hreader | hreader <;> rw [hreader] <;> rfl
  | startRead r hreader | endRead r flag result hreader | release r result hreader | deny r result hreader
  | acknowledge r result hreader | post r result hreader =>
      refine h.of_eq ?_ rfl
      unfold State.line
      rw [hreader]
      rfl
  | wake hasleep =>
      refine h.of_eq ?_ rfl
      unfold State.line
      rw [hasleep]
      rfl

/-! The hand-shake on `current_job`. -/

/-- The job is announced in `current_job` exactly while it runs, as long as no
cancellation has been requested. A requested one finds `current_job` empty until
the thread, done with the read, puts the job back, and then waits for the queue. -/
structure Shaken (s : State) : Prop where
  ready : s.strand = .free ∨ (∃ r, s.strand = .locked r) →
    s.currentJob = s.reader.job?.map Read.fiber ∧ ∀ r result, s.reader ≠ .denied r result
  busy : ∀ r, s.strand = .requested r ∨ s.strand = .cancelled r →
    (s.currentJob = none ∧ (s.reader.job? = some r ∨ ∃ result, s.reader = .denied r result)) ∨
      (s.currentJob = some r.fiber ∧ .ended r ∈ s.log ∧
        (s.reader = .starting ∨ ∃ result, s.reader = .answered r result))
  locked : ∀ r, s.strand = .locked r → s.suspended r.fiber = some r
  ended : ∀ r result, s.reader = .ended r result ∨ s.reader = .denied r result → .ended r ∈ s.log

/-- A step that leaves the hand-shake alone. -/
theorem Shaken.of_same {s s' : State} (hs : Shaken s) (hjob : s'.currentJob = s.currentJob)
    (hreader : s'.reader = s.reader) (hstrand : s'.strand = s.strand)
    (hsuspended : ∀ r, s.strand = .locked r → s'.suspended r.fiber = s.suspended r.fiber)
    (hlog : ∀ e ∈ s.log, e ∈ s'.log) : Shaken s' where
  ready h := by
    rw [hstrand] at h
    rw [hjob, hreader]
    exact hs.ready h
  busy r h := by
    rw [hstrand] at h
    rw [hjob, hreader]
    exact (hs.busy r h).imp_right fun hended => ⟨hended.1, hlog _ hended.2.1, hended.2.2⟩
  locked r h := by
    rw [hstrand] at h
    rw [hsuspended r h]
    exact hs.locked r h
  ended r result h := by
    rw [hreader] at h
    exact hlog _ (hs.ended r result h)

/-- The job that is announced is the read that its fiber is suspended in. -/
theorem Shaken.job_of_current {s : State} (hs : Shaken s) (ht : Tracked s) {r : Read}
    (hlocked : s.strand = .locked r) (hjob : s.currentJob = some r.fiber) : s.reader.job? = some r := by
  obtain ⟨hcurrent, -⟩ := hs.ready (.inr ⟨r, hlocked⟩)
  rw [hcurrent] at hjob
  obtain ⟨r', hr', hfiber⟩ := Option.map_eq_some_iff.mp hjob
  have hlive : r' ∈ s.live := by
    unfold State.live
    cases hreader : s.reader <;> rw [hreader] at hr' <;> cases hr' <;> simp [Reader.read?, Reader.job?]
  have hsuspended := ht.suspended r' hlive
  rw [hfiber, hs.locked r hlocked] at hsuspended
  rw [hr', Option.some.inj hsuspended]

/-- The thread has no read before and after the step. -/
theorem Shaken.at_rest {s s' : State} (hs : Shaken s) (hrest : s.reader.read? = none)
    (hrest' : s'.reader.read? = none) (hquiet : ∀ r, s.strand ≠ .requested r ∧ s.strand ≠ .cancelled r)
    (hjob : s'.currentJob = s.currentJob) (hstrand : s'.strand = s.strand)
    (hsuspended : ∀ r, s.strand = .locked r → s'.suspended r.fiber = s.suspended r.fiber) : Shaken s' where
  ready h := by
    rw [hstrand] at h
    rw [hjob, (hs.ready h).1]
    cases hr : s.reader <;> rw [hr] at hrest <;> cases hrest <;>
      cases hr' : s'.reader <;> rw [hr'] at hrest' <;> cases hrest' <;> exact ⟨rfl, nofun⟩
  busy r h := by
    rw [hstrand] at h
    exact h.elim (fun h => absurd h (hquiet r).1) fun h => absurd h (hquiet r).2
  locked r h := by
    rw [hstrand] at h
    rw [hsuspended r h]
    exact hs.locked r h
  ended r result h := by
    rcases h with h | h <;> rw [h] at hrest' <;> cases hrest'

/-- The thread has the same read before and after the step, and its exchange is
still to come. -/
theorem Shaken.at_work {s s' : State} (hs : Shaken s) {r : Read} (hwork : s.reader.job? = some r)
    (hwork' : s'.reader.job? = some r) (hjob : s'.currentJob = s.currentJob) (hstrand : s'.strand = s.strand)
    (hsuspended : s'.suspended = s.suspended) (hended : ∀ result, s'.reader = .ended r result → .ended r ∈ s'.log) :
    Shaken s' where
  ready h := by
    rw [hstrand] at h
    rw [hjob, hwork', ← hwork]
    refine ⟨(hs.ready h).1, fun r' result h' => ?_⟩
    rw [h'] at hwork'
    cases hwork'
  busy r' h := by
    rw [hstrand] at h
    rw [hjob]
    rcases hs.busy r' h with ⟨hnone, hread | ⟨result, hdenied⟩⟩ | ⟨-, -, hstarting | ⟨result, hanswered⟩⟩
    · exact .inl ⟨hnone, .inl (hwork'.trans (hwork.symm.trans hread))⟩
    · rw [hdenied] at hwork
      cases hwork
    · rw [hstarting] at hwork
      cases hwork
    · rw [hanswered] at hwork
      cases hwork
  locked r' h := by
    rw [hstrand] at h
    rw [hsuspended]
    exact hs.locked r' h
  ended r' result h := by
    rcases h with h | h
    · obtain rfl : r' = r := by
        rw [h] at hwork'
        exact Option.some.inj hwork'
      exact hended result h
    · rw [h] at hwork'
      cases hwork'

/-- The interrupter goes round its loop. -/
theorem Shaken.turn {s s' : State} (hs : Shaken s) {r : Read} (h : s.strand = .requested r ∨ s.strand = .cancelled r)
    (h' : s'.strand = .requested r ∨ s'.strand = .cancelled r) (hjob : s'.currentJob = s.currentJob)
    (hreader : s'.reader = s.reader) (hlog : ∀ e ∈ s.log, e ∈ s'.log) : Shaken s' where
  ready hready := by
    rcases hready with hready | ⟨r', hready⟩ <;> rw [hready] at h' <;> rcases h' with h' | h' <;> cases h'
  busy r' hbusy := by
    obtain rfl : r' = r := by
      rcases hbusy with hbusy | hbusy <;> rw [hbusy] at h' <;> rcases h' with h' | h' <;> cases h' <;> rfl
    rw [hjob, hreader]
    exact (hs.busy r' h).imp_right fun hended => ⟨hended.1, hlog _ hended.2.1, hended.2.2⟩
  locked r' hlocked := by
    rw [hlocked] at h'
    rcases h' with h' | h' <;> cases h'
  ended r' result hended := by
    rw [hreader] at hended
    exact hlog _ (hs.ended r' result hended)

/-- The thread is at the end of a read whose cancellation has been requested, or
of one that nobody wants to cancel. -/
theorem Shaken.strand_cases {s : State} (hs : Shaken s) :
    (s.currentJob = s.reader.job?.map Read.fiber ∧ (∀ r result, s.reader ≠ .denied r result) ∧
      ∀ r, s.strand ≠ .requested r ∧ s.strand ≠ .cancelled r) ∨
    ∃ r, s.strand = .requested r ∨ s.strand = .cancelled r := by
  cases hstrand : s.strand with
  | free => exact .inl ⟨(hs.ready (.inl hstrand)).1, (hs.ready (.inl hstrand)).2, fun r => ⟨nofun, nofun⟩⟩
  | locked r => exact .inl ⟨(hs.ready (.inr ⟨r, hstrand⟩)).1, (hs.ready (.inr ⟨r, hstrand⟩)).2, fun r => ⟨nofun, nofun⟩⟩
  | requested r => exact .inr ⟨r, .inl rfl⟩
  | cancelled r => exact .inr ⟨r, .inr rfl⟩

theorem Moves.shaken {s s' : State} (hmoves : Moves s s') (ht : Tracked s) (hs : Shaken s) : Shaken s' := by
  cases hmoves with
  | readSome f hfree hnone =>
      have hlocked : ∀ r, s.strand = .locked r → (s.readSome f).suspended r.fiber = s.suspended r.fiber := by
        intro r h
        rw [hfree] at h
        cases h
      rcases s.readSome_reader f with hsame | ⟨hasleep, hwoken⟩
      · exact hs.of_same rfl hsame rfl hlocked fun _ h => List.mem_cons_of_mem _ h
      · refine hs.at_rest (by rw [hasleep]; rfl) (by rw [hwoken]; rfl) (fun r => ?_) rfl rfl hlocked
        rw [hfree]
        exact ⟨nofun, nofun⟩
  | found r pre post hfree hin hqueue =>
      exact hs.of_same rfl rfl rfl (fun _ _ => rfl) fun _ h => h
  | resume r result rest hfree hposted =>
      refine hs.of_same rfl rfl rfl (fun r' h => ?_) fun _ h => List.mem_cons_of_mem _ h
      rw [hfree] at h
      cases h
  | missed r hfree hin =>
      have hready := hs.ready (.inl hfree)
      refine ⟨fun _ => hready, fun r' h => ?_, fun r' h => ?_, hs.ended⟩
      · rcases h with h | h <;> cases h
      · cases h
        exact hin
  | request r hlocked hjob =>
      refine ⟨fun h => ?_, fun r' h => ?_, nofun, hs.ended⟩
      · rcases h with h | ⟨_, h⟩ <;> cases h
      · obtain rfl : r = r' := by
          rcases h with h | h
          · exact Strand.requested.inj h
          · cases h
        exact .inl ⟨rfl, .inl (hs.job_of_current ht hlocked hjob)⟩
  | unlock r hlocked =>
      refine ⟨fun _ => hs.ready (.inr ⟨r, hlocked⟩), fun r' h => ?_, nofun, hs.ended⟩
      rcases h with h | h <;> cases h
  | abort r r' flag hrequested hreader =>
      have hturned : Shaken { s with strand := .cancelled r, log := .cancelled r (some r') :: s.log } :=
        hs.turn (.inl hrequested) (.inr rfl) rfl rfl fun _ h => List.mem_cons_of_mem _ h
      refine hturned.at_work (r := r') ?_ rfl rfl rfl rfl nofun
      rw [hreader]
      rfl
  | abortNothing r hrequested =>
      exact hs.turn (.inl hrequested) (.inr rfl) rfl rfl fun _ h => List.mem_cons_of_mem _ h
  | again r hcancelled => exact hs.turn (.inr hcancelled) (.inl rfl) rfl rfl fun _ h => h
  | leave r hcancelled hjob =>
      rcases hs.busy r (.inr hcancelled) with ⟨hnone, -⟩ | ⟨-, -, hreader⟩
      · rw [hnone] at hjob
        cases hjob
      · refine ⟨fun _ => ?_, fun r' h => ?_, nofun, fun r' result h => ?_⟩
        · rcases hreader with hreader | ⟨result, hreader⟩ <;> simp only <;> rw [hreader] <;>
            exact ⟨rfl, nofun⟩
        · rcases h with h | h <;> cases h
        · exact List.mem_cons_of_mem _ (hs.ended r' result h)
  | sleep vmCtx hfree hreader hqueue =>
      refine hs.at_rest ?_ rfl (fun r => ?_) rfl rfl fun _ _ => rfl
      · rcases hreader with hreader | hreader <;> rw [hreader] <;> rfl
      · rw [hfree]
        exact ⟨nofun, nofun⟩
  | take r queue hfree hreader hqueue =>
      refine ⟨fun _ => ⟨rfl, nofun⟩, fun r' h => ?_, fun r' h => ?_, nofun⟩
      · simp only [hfree] at h
        rcases h with h | h <;> cases h
      · simp only [hfree] at h
        cases h
  | wake hasleep =>
      refine hs.at_rest (by rw [hasleep]; rfl) rfl (fun r => ?_) rfl rfl fun _ _ => rfl
      rw [← not_or]
      intro h
      rcases hs.busy r h with ⟨-, hread | ⟨result, hread⟩⟩ | ⟨-, -, hread | ⟨result, hread⟩⟩ <;>
        rw [hasleep] at hread <;> cases hread
  | startRead r hreader =>
      exact hs.at_work (r := r) (by rw [hreader]; rfl) rfl rfl rfl rfl nofun
  | endRead r flag result hreader =>
      exact hs.at_work (r := r) (by rw [hreader]; rfl) rfl rfl rfl rfl fun _ _ => List.mem_cons_self ..
  | release r result hreader hjob =>
      rcases hs.strand_cases with ⟨-, -, hquiet⟩ | ⟨r', h⟩
      · refine ⟨fun _ => ⟨rfl, nofun⟩, fun r' h => ?_, hs.locked, fun r' result' h => ?_⟩
        · exact h.elim (fun h => absurd h (hquiet r').1) fun h => absurd h (hquiet r').2
        · rcases h with h | h <;> cases h
      · rcases hs.busy r' h with ⟨hnone, -⟩ | ⟨-, -, hread | ⟨result', hread⟩⟩
        · rw [hnone] at hjob
          cases hjob
        · rw [hreader] at hread
          cases hread
        · rw [hreader] at hread
          cases hread
  | deny r result hreader hjob =>
      have hended : ∀ r' result', Reader.denied r result = .ended r' result' ∨
          Reader.denied r result = .denied r' result' → Event.ended r' ∈ s.log := by
        intro r' result' h
        rcases h with h | h
        · cases h
        · cases h
          exact hs.ended r result (.inl hreader)
      rcases hs.strand_cases with ⟨hcurrent, -, -⟩ | ⟨r', h⟩
      · rw [hreader] at hcurrent
        exact absurd hcurrent hjob
      · refine ⟨fun hready => ?_, fun r'' h'' => ?_, hs.locked, hended⟩
        · rcases hready with hready | ⟨_, hready⟩ <;> simp only at hready <;> rw [hready] at h <;>
            rcases h with h | h <;> cases h
        · rcases hs.busy r'' h'' with ⟨hnone, hread | ⟨result', hread⟩⟩ | ⟨-, -, hread | ⟨result', hread⟩⟩ <;>
            rw [hreader] at hread <;> cases hread
          exact .inl ⟨hnone, .inr ⟨result, rfl⟩⟩
  | acknowledge r result hreader =>
      rcases hs.strand_cases with ⟨-, hdenied, -⟩ | ⟨r', h⟩
      · exact absurd hreader (hdenied r result)
      · refine ⟨fun hready => ?_, fun r'' h'' => ?_, hs.locked, fun r'' result' hended => ?_⟩
        · rcases hready with hready | ⟨_, hready⟩ <;> simp only at hready <;> rw [hready] at h <;>
            rcases h with h | h <;> cases h
        · rcases hs.busy r'' h'' with ⟨-, hread | ⟨result', hread⟩⟩ | ⟨-, -, hread | ⟨result', hread⟩⟩ <;>
            rw [hreader] at hread <;> cases hread
          exact .inr ⟨rfl, hs.ended r result (.inr hreader), .inr ⟨result, rfl⟩⟩
        · rcases hended with hended | hended <;> cases hended
  | post r result hreader =>
      refine ⟨fun hready => ⟨?_, nofun⟩, fun r' h => ?_, hs.locked, fun r' result' hended => ?_⟩
      · have hcurrent := (hs.ready hready).1
        rw [hreader] at hcurrent
        exact hcurrent
      · rcases hs.busy r' h with ⟨-, hread | ⟨result', hread⟩⟩ | ⟨hjob, hended, -⟩
        · rw [hreader] at hread
          cases hread
        · rw [hreader] at hread
          cases hread
        · exact .inr ⟨hjob, hended, .inl rfl⟩
      · rcases hended with hended | hended <;> cases hended

/-! The context and the sleep of the thread. -/

/-- The thread has the context of the VM while there is something to read, and
does not sleep then. -/
structure Served (s : State) : Prop where
  context : s.queue ≠ [] ∨ s.reader.read? ≠ none → s.vmCtx = true
  awake : s.reader = .asleep → s.queue = []

/-- A step of the thread with its read, or of the strand. -/
theorem Served.of_same {s s' : State} (h : Served s) (hqueue : s'.queue ≠ [] → s.queue ≠ [])
    (hread : s'.reader.read? ≠ none → s.reader.read? ≠ none) (hctx : s'.vmCtx = s.vmCtx)
    (hawake : s'.reader = .asleep → s.reader = .asleep) : Served s' where
  context hneed := by
    rw [hctx]
    exact h.context (hneed.imp hqueue hread)
  awake hasleep := by
    have hempty := h.awake (hawake hasleep)
    by_contra hne
    exact hqueue hne hempty

theorem Moves.served {s s' : State} (hmoves : Moves s s') (h : Served s) : Served s' := by
  cases hmoves with
  | readSome f hfree hnone =>
      have hctx : (s.readSome f).vmCtx = true := by
        change (s.vmCtx || s.queue.isEmpty) = true
        by_cases hempty : s.queue = []
        · rw [hempty, List.isEmpty_nil, Bool.or_true]
        · rw [h.context (.inl hempty), Bool.true_or]
      refine ⟨fun _ => hctx, fun hasleep => ?_⟩
      rcases s.readSome_reader f with hsame | ⟨-, hwoken⟩
      · have hempty := h.awake (hsame ▸ hasleep)
        have hwoken : (s.readSome f).reader = .woken := by
          unfold State.readSome
          dsimp only
          rw [if_pos]
          rw [hempty, ← hsame, hasleep]
          rfl
        rw [hasleep] at hwoken
        cases hwoken
      · rw [hasleep] at hwoken
        cases hwoken
  | found r pre post hfree hin hqueue =>
      refine h.of_same (fun _ => ?_) id rfl id
      rw [hqueue]
      exact List.append_ne_nil_of_right_ne_nil _ (List.cons_ne_nil _ _)
  | missed | request | unlock | again | abortNothing | leave | resume => exact h.of_same id id rfl id
  | abort r r' flag hrequested hreader | startRead r hreader | endRead r flag result hreader
  | release r result hreader | deny r result hreader | acknowledge r result hreader =>
      refine h.of_same id (fun _ => ?_) rfl nofun
      rw [hreader]
      exact Option.some_ne_none _
  | sleep vmCtx hfree hreader hqueue =>
      exact ⟨fun hneed => hneed.elim (absurd hqueue) (absurd rfl), fun _ => hqueue⟩
  | take r queue hfree hreader hqueue =>
      refine ⟨fun _ => h.context (.inl ?_), nofun⟩
      rw [hqueue]
      exact List.cons_ne_nil _ _
  | wake | post => exact h.of_same id (absurd rfl) rfl nofun

/-! Whole runs. -/

/-- What the log says of cancellations. -/
structure Logged (log : List Event) : Prop where
  own : ∀ r r', .cancelled r (some r') ∈ log → r' = r
  left : ∀ r pre post, log = post ++ .left r :: pre → .ended r ∈ pre

theorem Logged.cons {log : List Event} {e : Event} (h : Logged log)
    (hown : ∀ r r', e = .cancelled r (some r') → r' = r) (hleft : ∀ r, e = .left r → .ended r ∈ log) :
    Logged (e :: log) where
  own r r' hin := by
    rcases List.mem_cons.mp hin with heq | hin
    · exact hown r r' heq.symm
    · exact h.own r r' hin
  left r pre post hsplit := by
    cases post with
    | nil =>
        obtain ⟨he, hlog⟩ := List.cons.inj hsplit
        rw [← hlog]
        exact hleft r he
    | cons e' post => exact h.left r pre post (List.cons.inj hsplit).2

theorem Moves.logged {s s' : State} (hmoves : Moves s s') (hs : Shaken s) (h : Logged s.log) :
    Logged s'.log := by
  cases hmoves with
  | found | missed | request | unlock | again | sleep | take | wake | release | deny | acknowledge
  | post => exact h
  | readSome | resume | abortNothing | startRead | endRead => exact h.cons nofun nofun
  | abort r r' flag hrequested hreader =>
      refine h.cons (fun r₁ r₂ heq => ?_) nofun
      obtain ⟨rfl, heq'⟩ := Event.cancelled.inj heq
      obtain rfl := Option.some.inj heq'
      rcases hs.busy r (.inl hrequested) with ⟨-, hread | ⟨result, hread⟩⟩ | ⟨-, -, hread | ⟨result, hread⟩⟩ <;>
        rw [hreader] at hread <;> cases hread
      rfl
  | leave r hcancelled hjob =>
      refine h.cons nofun fun r' heq => ?_
      obtain rfl := Event.left.inj heq
      rcases hs.busy r (.inr hcancelled) with ⟨hnone, -⟩ | ⟨-, hended, -⟩
      · rw [hnone] at hjob
        cases hjob
      · exact hended

/-- What every reachable state satisfies. -/
structure Invariant (s : State) : Prop where
  tracked : Tracked s
  ordered : Ordered s
  shaken : Shaken s
  logged : Logged s.log
  served : Served s

theorem Invariant.initial : Invariant .initial where
  tracked := ⟨List.nodup_nil, nofun, nofun, nofun, List.nodup_nil⟩
  ordered := List.Sublist.refl _
  shaken := by
    refine ⟨fun _ => ⟨rfl, nofun⟩, fun r h => ?_, nofun, fun r result h => ?_⟩
    · rcases h with h | h <;> cases h
    · rcases h with h | h <;> cases h
  logged := by
    refine ⟨nofun, fun r pre post h => ?_⟩
    have hlen := congrArg List.length h
    rw [List.length_append, List.length_cons] at hlen
    change 0 = _ at hlen
    omega
  served := ⟨fun h => h.elim (absurd rfl) (absurd rfl), nofun⟩

theorem reachable_invariant {s : State} (h : Reachable s) : Invariant s := by
  refine Transition.Reachable.invariant h ?_ fun s a s' hs hstep => ?_
  · rintro s rfl
    exact .initial
  · have hmoves := moves_of_exec hs.tracked hstep
    exact ⟨hmoves.tracked hs.tracked, hmoves.ordered hs.ordered, hmoves.shaken hs.tracked hs.shaken,
      hmoves.logged hs.shaken hs.logged, hmoves.served hs.served⟩

/-- The exchange of the thread finds its own fiber or nothing. -/
theorem release_expected {s : State} (h : Reachable s) {r : Read} {result : Result}
    (hended : s.reader = .ended r result) : s.currentJob = some r.fiber ∨ s.currentJob = none := by
  have hs := (reachable_invariant h).shaken
  rcases hs.strand_cases with ⟨hcurrent, -, -⟩ | ⟨r', hbusy⟩
  · rw [hended] at hcurrent
    exact .inl hcurrent
  · rcases hs.busy r' hbusy with ⟨hnone, -⟩ | ⟨-, -, hread | ⟨result', hread⟩⟩
    · exact .inr hnone
    · rw [hended] at hread
      cases hread
    · rw [hended] at hread
      cases hread

/-- Reads start in the order in which they were queued, none is resumed twice, a
cancellation hits no other read than its own, and it is over only when that read
has ended. -/
theorem stdin_service_sound {s : State} (h : Reachable s) : Sound s := by
  obtain ⟨htracked, hordered, -, hlogged, -⟩ := reachable_invariant h
  refine ⟨htracked.once, ?_, hlogged.own, hlogged.left⟩
  refine List.Sublist.trans ?_ hordered
  unfold State.line
  rw [← List.append_assoc]
  exact List.sublist_append_right _ _

/-- Two fibers read; the first one is interrupted while `ReadFile` runs. -/
def interruptedRead : List Action :=
  [.readSome 1, .readSome 2, .enter, .startRead, .interrupt 1, .tryCancel, .cancelSynchronousIo, .endRead 0 5,
    .retry false, .cancelSynchronousIo, .release, .acknowledge, .retry false, .post, .resume, .enter, .startRead]

theorem stdin_service_sound_interrupted :
    ∃ s, Sound s ∧ s.log = [.started ⟨1, 2⟩, .resumed ⟨0, 1⟩ (.read ERROR_OPERATION_ABORTED 0), .left ⟨0, 1⟩,
      .cancelled ⟨0, 1⟩ none, .ended ⟨0, 1⟩, .cancelled ⟨0, 1⟩ (some ⟨0, 1⟩), .started ⟨0, 1⟩,
      .queued ⟨1, 2⟩, .queued ⟨0, 1⟩] := by
  have hrun : (runIf exec (fun _ _ => true) .initial interruptedRead).map State.log =
      some [.started ⟨1, 2⟩, .resumed ⟨0, 1⟩ (.read ERROR_OPERATION_ABORTED 0), .left ⟨0, 1⟩,
        .cancelled ⟨0, 1⟩ none, .ended ⟨0, 1⟩, .cancelled ⟨0, 1⟩ (some ⟨0, 1⟩), .started ⟨0, 1⟩,
        .queued ⟨1, 2⟩, .queued ⟨0, 1⟩] := by decide
  obtain ⟨s, hs, hlog⟩ := Option.map_eq_some_iff.mp hrun
  have hreachable : Reachable s :=
    Transition.Reachable.of_restrict (reachable_of_runIf ⟨.initial, rfl, .refl⟩ hs)
  exact ⟨s, stdin_service_sound hreachable, hlog⟩

end Emilua.Windows.Stdin
