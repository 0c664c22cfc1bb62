import Emilua.Actor.Simulation
import Emilua.Lib.Transition

/-!
What a process guarantees about its channels, in every state it can reach:
whether a send completes, with what, and in which order messages arrive; and
that a fiber that waits to receive is woken once.
-/
namespace Emilua.Actor
open Emilua Ipc Token Relation Transition

variable {c : Config} {s s' : State}

theorem reachable_of_runIf {ok : State → Action c → Bool} {as : List (Action c)}
    (hs : Reachable Initial (restrict (fun s a => ok s a = true) (Step c)) s)
    (hrun : runIf ok s as = some s') :
    Reachable Initial (restrict (fun s a => ok s a = true) (Step c)) s' := by
  induction as generalizing s with
  | nil =>
      cases hrun
      exact hs
  | cons a as ih =>
      rw [runIf] at hrun
      split at hrun
      · next hok =>
          split at hrun
          · next s₁ hexec => exact ih (hs.trans (.single ⟨a, hok, hexec⟩)) hrun
          · cases hrun
      · cases hrun

/-- The protocol behind a state, with what it guarantees. -/
structure Sound (strict : Prop) (s : State) (b : Protocol) : Prop where
  simulates : Simulates strict 0 s b
  settled : AllSettled s
  sends : Rendezvous.Sends b
  waits : Rendezvous.Waits b

theorem Simulates.of_recvFiber {strict : Prop} {b : Protocol} (h : Simulates strict 0 s b) {v : VmId}
    {f : FiberId} (hf : (s.vms v).recvFiber = some f) :
    (s.vms v).valid = true ∧ ∃ k, s.suspension (v, f) = .receiving k := by
  have hv : v < s.vmCount := h.bounded.lt fun habs => by
    rw [habs] at hf
    cases hf
  obtain ⟨place, h⟩ := h
  have hmem : (.receiving, (v, f)) ∈ s.held.1 := State.mem_held.mpr ⟨v, hv, rfl, hf⟩
  have htracks := h.tracks (v, f)
  rw [h.located.place_of_mem (by rwa [add_zero])] at htracks
  generalize s.suspension (v, f) = x, b.phase (v, f) = φ at htracks ⊢
  cases htracks with
  | waiting k hvalid => exact ⟨hvalid, k, rfl⟩

theorem Simulates.valid_of_recvFiber {strict : Prop} {b : Protocol} (h : Simulates strict 0 s b) {v : VmId}
    (hrecv : (s.vms v).recvFiber ≠ none) : (s.vms v).valid = true := by
  obtain ⟨f, hf⟩ := Option.ne_none_iff_exists'.mp hrecv
  exact (h.of_recvFiber hf).1

theorem Sound.initial (strict : Prop) (hinit : Initial s) :
    Sound strict s (Rendezvous.State.initial s.fresh) := by
  obtain ⟨child, rfl⟩ := hinit
  have hvms : ∀ v, ((State.initial child).vms v).strand = [] ∧ ((State.initial child).vms v).incoming = [] ∧
      ((State.initial child).vms v).cont = none ∧ ((State.initial child).vms v).recvFiber = none ∧
      ((State.initial child).vms v).current = none ∧
      ∀ f, (((State.initial child).vms v).fibers f).suspension = .elsewhere := by
    intro v
    simp only [State.initial]
    split
    · split <;> exact ⟨rfl, rfl, rfl, rfl, rfl, fun _ => rfl⟩
    · exact ⟨rfl, rfl, rfl, rfl, rfl, fun _ => rfl⟩
  have hheld : (State.initial child).held = 0 := by
    rw [State.held, total]
    refine Finset.sum_eq_zero fun v _ => ?_
    obtain ⟨hstrand, hincoming, hcont, hrecv, -, -⟩ := hvms v
    simp [Vm.held, hstrand, hincoming, hcont, hrecv]
  refine ⟨⟨fun _ => none, ?_, ?_, ?_, fun p => ?_, rfl, rfl⟩, fun v => ?_, .initial _, .initial _⟩
  · intro v hv
    have hne : v ≠ 0 := Nat.ne_of_gt hv
    simp [State.initial, hne]
  · intro _
    rw [hheld]
    rfl
  · intro l p
    simp [hheld]
  · rw [State.suspension, (hvms p.1).2.2.2.2.2 p.2]
    exact .free rfl
  · obtain ⟨-, -, hcont, -, hcurrent, -⟩ := hvms v
    exact ⟨fun f hf => absurd (hcurrent.symm.trans hf) (by simp), fun _ => hcont⟩

theorem Sound.step {strict : Prop} {b : Protocol} {a : Action c} (h : Sound strict s b)
    (hstrict : strict → ¬ staleInterrupt s a) (hstep : Step c s a s') :
    ∃ b', ReflTransGen Rendezvous.Step b b' ∧ Sound strict s' b' := by
  have hsafe := exec_safe h.simulates h.settled a hstrict
  rw [show exec s a = .ok s' from hstep] at hsafe
  obtain ⟨b', hrun, hsim⟩ := hsafe
  exact ⟨b', hrun, hsim,
    exec_settled h.settled (fun v hv => h.simulates.valid_of_recvFiber hv) hstep,
    h.sends.run hrun, h.waits.run hrun⟩

/-- Along a whole run. -/
theorem Sound.run {strict : Prop} {b : Protocol} {step : State → Action c → State → Prop}
    (hok : ∀ s a s', step s a s' → Step c s a s' ∧ (strict → ¬ staleInterrupt s a))
    (h : Sound strict s b) (hrun : ReflTransGen (Next step) s s') :
    ∃ b', ReflTransGen Rendezvous.Step b b' ∧ Sound strict s' b' := by
  induction hrun with
  | refl => exact ⟨b, .refl, h⟩
  | tail _ hstep ih =>
      obtain ⟨b₁, hrun₁, h₁⟩ := ih
      obtain ⟨a, ha⟩ := hstep
      obtain ⟨hstep, hstrict⟩ := hok _ a _ ha
      obtain ⟨b₂, hrun₂, h₂⟩ := h₁.step hstrict hstep
      exact ⟨b₂, hrun₁.trans hrun₂, h₂⟩

theorem Sound.reachable {strict : Prop} {step : State → Action c → State → Prop}
    (hok : ∀ s a s', step s a s' → Step c s a s' ∧ (strict → ¬ staleInterrupt s a))
    (hs : Reachable Initial step s) : ∃ b, Sound strict s b := by
  obtain ⟨s₀, hinit, hrun⟩ := hs
  obtain ⟨b, -, h⟩ := Sound.run hok (.initial strict hinit) hrun
  exact ⟨b, h⟩

/-! Sends. -/

/-- The sender has been answered with success but has not been resumed yet. -/
def State.SuccessPending (s : State) (x : Send) : Prop :=
  (s.vms x.inbox).cont = some x.party ∨ .resume (some x.party.2) none ∈ (s.vms x.party.1).strand

theorem Sound.delivered_settled {strict : Prop} {b : Protocol} (h : Sound strict s b) {x : Send}
    (hx : x ∈ s.hist.delivered) : (x.id, none) ∈ s.hist.completed ∨ s.SuccessPending x ∨
      (s.vms x.party.1).valid = false := by
  obtain ⟨place, htracked⟩ := h.simulates
  have htracks := htracked.tracks x.party
  have hheld : ∀ l, place x.party = some l → ∃ v < s.vmCount, (s.vms v).Holds v l x.party := by
    intro l hl
    have hmem := htracked.located.mem_of_place hl
    rwa [add_zero, State.mem_held] at hmem
  rw [← htracked.hist] at hx ⊢
  rcases h.sends.settled x hx with hdone | ⟨hsend, hgiven⟩ | hlost
  · exact .inl hdone
  · right
    left
    generalize place x.party = l, b.phase x.party = φ, s.suspension x.party = y at *
    cases htracks with
    | handing =>
        obtain ⟨v, -, rfl, hcont⟩ := hheld _ rfl
        cases hsend
        exact .inl hcont
    | answered n d error =>
        cases error with
        | none =>
            obtain ⟨v, -, rfl, hmem⟩ := hheld _ rfl
            exact .inr hmem
        | some e => cases hgiven
    | free | lost => cases hsend
    | posted | queued | waiting | claimed => cases hgiven
  · right
    right
    rw [hlost] at htracks
    generalize place x.party = l, s.suspension x.party = y at htracks
    cases htracks with
    | lost hvalid => exact hvalid

private theorem pair_sublist {α : Type} {f : α → Nat} {x y : α} {l : List α}
    (hl : l.Pairwise fun a b => f a < f b) (hx : x ∈ l) (hy : y ∈ l) (hlt : f x < f y) :
    [x, y].Sublist l := by
  induction l with
  | nil => cases hx
  | cons a l ih =>
      obtain ⟨hhead, htail⟩ := List.pairwise_cons.mp hl
      rcases List.mem_cons.mp hx with rfl | hx'
      · rcases List.mem_cons.mp hy with rfl | hy'
        · exact absurd hlt (lt_irrefl _)
        · exact (List.singleton_sublist.mpr hy').cons_cons x
      · rcases List.mem_cons.mp hy with rfl | hy'
        · exact absurd (hhead x hx') (Nat.not_lt.mpr hlt.le)
        · exact (ih htail hx' hy').cons a

theorem Sound.in_order {strict : Prop} {b : Protocol} (h : Sound strict s b) :
    s.hist.delivered.Pairwise fun x y => x.party = y.party → [x, y].Sublist s.hist.sent := by
  obtain ⟨place, htracked⟩ := h.simulates
  rw [← htracked.hist]
  refine h.sends.ordered.imp_of_mem fun {x y} hx hy hlt hparty => ?_
  exact pair_sublist h.sends.sorted (h.sends.delivered_sent hx) (h.sends.delivered_sent hy) (hlt hparty)

theorem Sound.outcome {strict : Prop} {b : Protocol} (h : Sound strict s b) {n : Nat}
    {o : Option WakeError} (hn : (n, o) ∈ s.hist.completed) :
    o = none ↔ (s.hist.delivered.map Rendezvous.Send.id).count n = 1 := by
  obtain ⟨place, htracked⟩ := h.simulates
  rw [← htracked.hist] at hn ⊢
  cases o with
  | none => exact iff_of_true rfl (List.count_eq_one_of_mem h.sends.delivered_nodup (h.sends.succeeded n hn))
  | some e =>
      have hnot := List.count_eq_zero_of_not_mem (h.sends.failed n e hn)
      simp [hnot]

/-- In every state a process can reach: a send is completed at most once, with
success exactly if its message has been handed to one receive, and with an error
only if that does not happen later either; a delivered message is completed, or
about to be, or its VM is closed; nothing is delivered twice, and what one
fiber sends arrives in order. No action resumes a fiber that is not suspended. -/
theorem chan_send_outcomes (hs : Reachable Initial (Step c) s) :
    (s.hist.completed.map Prod.fst).Nodup ∧
    (∀ n o, (n, o) ∈ s.hist.completed →
      (o = none ↔ (s.hist.delivered.map Rendezvous.Send.id).count n = 1)) ∧
    (∀ x ∈ s.hist.delivered, (x.id, none) ∈ s.hist.completed ∨ s.SuccessPending x ∨
      (s.vms x.party.1).valid = false) ∧
    (∀ n e s', (n, some e) ∈ s.hist.completed → ReflTransGen (Next (Step c)) s s' →
      n ∉ s'.hist.delivered.map Rendezvous.Send.id) ∧
    (s.hist.delivered.map Rendezvous.Send.id).Nodup ∧
    (s.hist.delivered.Pairwise fun x y => x.party = y.party → x.inbox = y.inbox →
      [x, y].Sublist s.hist.sent) ∧
    ∀ a : Action c, exec s a ≠ .error .notSuspended := by
  have hok : ∀ s a s', Step c s a s' → Step c s a s' ∧ (False → ¬ staleInterrupt s a) :=
    fun _ _ _ h => ⟨h, False.elim⟩
  obtain ⟨b, h⟩ := Sound.reachable hok hs
  obtain ⟨place, htracked⟩ := id h.simulates
  refine ⟨?_, fun n o => h.outcome, fun x => h.delivered_settled, ?_, ?_, ?_, fun a ha => ?_⟩
  · rw [← htracked.hist]
    exact h.sends.completed_nodup
  · intro n e s' hn hrun
    obtain ⟨b', hrun', h'⟩ := h.run hok hrun
    obtain ⟨place', htracked'⟩ := h'.simulates
    rw [← htracked.hist] at hn
    rw [← htracked'.hist]
    exact h'.sends.failed n e (Rendezvous.completed_mono hrun' hn)
  · rw [← htracked.hist]
    exact h.sends.delivered_nodup
  · exact h.in_order.imp fun hxy hparty _ => hxy hparty
  · have hsafe := exec_safe h.simulates h.settled a False.elim
    rw [ha] at hsafe
    exact hsafe.1 rfl

/-- Two VMs: one sends, the other has been waiting and passes the message on. -/
def relayed : List (Action .standard) :=
  [.resumeElsewhere 0 0, .spawnVm 0, .resumeElsewhere 1 0, .importInbox 1, .chanReceive 1 true,
    .chanSend 0 1 (.boolean true) true, .runHandler 1, .suspendElsewhere 1, .runHandler 0]

theorem chan_send_outcomes_relayed : ∃ s, Reachable Initial (Step .standard) s ∧
    s.hist.completed = [(3, none)] ∧ (s.hist.delivered.map Rendezvous.Send.id).count 3 = 1 := by
  have hrun : (runIf (fun _ _ => true) (State.initial false) relayed).map (·.hist.completed) =
      some [(3, none)] := by decide +kernel
  obtain ⟨s, hs, hcompleted⟩ := Option.map_eq_some_iff.mp hrun
  have hreach := (reachable_of_runIf ⟨_, ⟨false, rfl⟩, .refl⟩ hs).of_restrict
  refine ⟨s, hreach, hcompleted, ((chan_send_outcomes hreach).2.1 3 none ?_).mp rfl⟩
  rw [hcompleted]
  exact List.mem_singleton_self _

/-! Receives. -/

/-- What a posted resume of fiber `f` brings. -/
def Handler.claim? (f : FiberId) : Handler → Option (Option WakeError)
  | .resume (some g) error => if g = f then some error else none
  | _ => none

def Vm.claims (m : Vm) (f : FiberId) : List (Option WakeError) := m.strand.filterMap (Handler.claim? f)

/-- A fiber that waits to receive is registered, or one resume of it has been
posted; other fibers are not registered. No posted resume is of no fiber. -/
structure WokenOnce (s : State) : Prop where
  woken : (s.hist.woken.map Prod.fst).Nodup
  named : ∀ v error, .resume none error ∉ (s.vms v).strand
  claimed : ∀ v f k, (s.vms v).valid = true → s.suspension (v, f) = .receiving k →
    (s.vms v).recvFiber = some f ∧ (s.vms v).claims f = [] ∨
      (s.vms v).recvFiber ≠ some f ∧ ∃ error, (s.vms v).claims f = [error]
  free : ∀ v f, (s.suspension (v, f)).blocked = false →
    (s.vms v).recvFiber ≠ some f ∧ (s.vms v).claims f = []

theorem Vm.count_claims (v : VmId) (m : Vm) (f : FiberId) (error : Option WakeError) :
    (m.claims f).count error = (m.held v).1.count (.resuming error, (v, f)) := by
  have hstrand : ∀ xs : List Handler, (xs.filterMap (Handler.claim? f)).count error =
      ((xs.map (Handler.held v)).sum).1.count (.resuming error, (v, f)) := by
    intro xs
    induction xs with
    | nil => rfl
    | cons x xs ih =>
        rw [List.map_cons, List.sum_cons, Prod.fst_add, Multiset.count_add, ← ih, List.filterMap_cons]
        cases x with
        | resume fiber e =>
            cases fiber with
            | none => simp [Handler.held, Handler.claim?]
            | some g =>
                by_cases hg : g = f
                · subst hg
                  simp only [Handler.claim?, if_true, List.count_cons, Handler.held, Held.one,
                    Multiset.count_singleton, add_comm]
                  by_cases he : e = error
                  · simp [he, add_comm]
                  · simp [he, Ne.symm he]
                · simp [Handler.held, Handler.claim?, Held.one, hg, Ne.symm hg]
        | _ => simp [Handler.held, Handler.claim?, Held.one]
  have hother : ∀ x : Multiset (Place × Party),
      (∀ l p, (l, p) ∈ x → ∀ e, l ≠ .resuming e) → x.count (.resuming error, (v, f)) = 0 := by
    intro x hx
    exact Multiset.count_eq_zero.mpr fun hmem => hx _ _ hmem error rfl
  have hincoming := hother ((m.incoming.map (SenderState.held v)).sum).1 fun l p hmem e he => by
    obtain ⟨x, -, hx⟩ := (mem_sum_held _).mp hmem
    exact absurd ((SenderState.mem_held.mp hx).1.symm.trans he) (by simp)
  have hcont := hother (m.cont.elim 0 (Held.one (.handing v))).1 fun l p hmem e he => by
    cases hc : m.cont <;> simp [hc, Held.one, he] at hmem
  have hrecv := hother (m.recvFiber.elim 0 fun f => Held.one .receiving (v, f)).1 fun l p hmem e he => by
    cases hr : m.recvFiber <;> simp [hr, Held.one, he] at hmem
  rw [Vm.claims, hstrand, Vm.held, Prod.fst_add, Prod.fst_add, Prod.fst_add, Multiset.count_add,
    Multiset.count_add, Multiset.count_add, hincoming, hcont, hrecv]
  rfl

theorem State.count_resuming {v : VmId} (hv : v < s.vmCount) (f : FiberId) (error : Option WakeError) :
    s.held.1.count (.resuming error, (v, f)) = ((s.vms v).claims f).count error := by
  rw [Vm.count_claims v, State.held, total, Prod.fst_sum, Multiset.count_sum']
  refine Finset.sum_eq_single v (fun u _ hu => ?_) fun hno => absurd (Finset.mem_range.mpr hv) hno
  refine Multiset.count_eq_zero.mpr fun hmem => hu ?_
  exact (Vm.mem_held.mp hmem).1.symm

/-- The posted resumes of a fiber, by the place that holds it. -/
theorem Tracked.claims_eq {strict : Prop} {b : Protocol} {place : Party → Option Place}
    (h : Tracked strict 0 s b place) {v : VmId} (hv : v < s.vmCount) (f : FiberId) :
    (s.vms v).claims f =
      match place (v, f) with
      | some (.resuming error) => [error]
      | _ => [] := by
  have hcount : ∀ error, ((s.vms v).claims f).count error =
      if place (v, f) = some (.resuming error) then 1 else 0 := by
    intro error
    rw [← State.count_resuming hv, ← h.located, add_zero]
  split
  · next error hplace =>
      refine List.perm_singleton.mp (List.perm_iff_count.mpr fun e => ?_)
      rw [hcount, hplace, List.count_singleton]
      by_cases he : error = e <;> simp [he]
  · next hno =>
      refine List.eq_nil_iff_forall_not_mem.mpr fun e he => ?_
      have hpos := List.count_pos_iff.mpr he
      rw [hcount, if_neg (hno e)] at hpos
      exact absurd hpos (lt_irrefl _)

theorem Tracked.receiving_iff {strict : Prop} {b : Protocol} {place : Party → Option Place}
    (h : Tracked strict 0 s b place) {v : VmId} (hv : v < s.vmCount) (f : FiberId) :
    (s.vms v).recvFiber = some f ↔ place (v, f) = some .receiving := by
  constructor
  · intro hrecv
    refine h.located.place_of_mem ?_
    rw [add_zero, State.mem_held]
    exact ⟨v, hv, rfl, hrecv⟩
  · exact h.recvFiber_of_place (p := (v, f))

theorem State.unnamed_le_held {v : VmId} (hv : v < s.vmCount) {error : Option WakeError}
    (hmem : .resume none error ∈ (s.vms v).strand) : 0 < s.held.2 := by
  have hstrand : ∀ xs : List Handler, .resume none error ∈ xs → 0 < ((xs.map (Handler.held v)).sum).2 := by
    intro xs hxs
    induction xs with
    | nil => cases hxs
    | cons x xs ih =>
        rw [List.map_cons, List.sum_cons, Prod.snd_add]
        rcases List.mem_cons.mp hxs with rfl | hxs
        · exact Nat.add_pos_left Nat.one_pos _
        · exact Nat.add_pos_right _ (ih hxs)
  have hvm : 0 < ((s.vms v).held v).2 := by
    rw [Vm.held, Prod.snd_add, Prod.snd_add, Prod.snd_add]
    have := hstrand _ hmem
    omega
  rw [State.held, total, Prod.snd_sum]
  exact hvm.trans_le (Finset.single_le_sum (f := fun u => ((s.vms u).held u).2)
    (fun _ _ => Nat.zero_le _) (Finset.mem_range.mpr hv))

theorem Sound.wokenOnce {b : Protocol} (h : Sound True s b) : WokenOnce s := by
  obtain ⟨place, htracked⟩ := h.simulates
  constructor
  · rw [← htracked.hist]
    exact h.waits.woken_nodup
  · intro v error hmem
    have hv : v < s.vmCount := htracked.bounded.lt fun habs => by
      rw [habs] at hmem
      cases hmem
    have hpos := State.unnamed_le_held hv hmem
    have hnamed := htracked.named trivial
    rw [add_zero] at hnamed
    omega
  · intro v f k hvalid hsusp
    have hv := htracked.bounded.lt_of_valid hvalid
    have htracks := htracked.tracks (v, f)
    rw [htracked.claims_eq hv, Ne, htracked.receiving_iff hv]
    rw [hsusp, hvalid] at htracks
    generalize place (v, f) = l, b.phase (v, f) = φ at htracks
    cases htracks with
    | free hx => cases hx
    | waiting => exact .inl ⟨rfl, rfl⟩
    | claimed _ error => exact .inr ⟨by simp, error, rfl⟩
    | lost hno => cases hno
  · intro v f hfree
    by_cases hv : v < s.vmCount
    · have hidle := (htracked.idle hfree).1
      rw [Ne, htracked.receiving_iff hv, htracked.claims_eq hv, hidle]
      exact ⟨by simp, rfl⟩
    · rw [htracked.bounded v (Nat.le_of_not_lt hv)]
      exact ⟨by simp [Vm.absent, Vm.fresh], rfl⟩

/-- In every state reached without a stale interrupt, a fiber that waits to
receive is woken once and by its own resume, and no action resumes no fiber or
one that is not suspended. -/
theorem chan_receive_woken_once
    (hs : Reachable Initial (restrict (fun s a => ¬ staleInterrupt s a) (Step c)) s) :
    WokenOnce s ∧ ∀ a : Action c, ¬ staleInterrupt s a →
      exec s a ≠ .error .nullFiber ∧ exec s a ≠ .error .notSuspended := by
  have hok : ∀ s a s', restrict (fun s a => ¬ staleInterrupt s a) (Step c) s a s' →
      Step c s a s' ∧ (True → ¬ staleInterrupt s a) := fun _ _ _ h => ⟨h.2, fun _ => h.1⟩
  obtain ⟨b, h⟩ := Sound.reachable hok hs
  refine ⟨h.wokenOnce, fun a ha => ?_⟩
  have hsafe := exec_safe h.simulates h.settled a fun _ => ha
  constructor
  · intro heq
    rw [heq] at hsafe
    exact hsafe.2 trivial rfl
  · intro heq
    rw [heq] at hsafe
    exact hsafe.1 rfl

/-- Fiber 1 of a child process waits to receive; the main fiber closes the inbox. -/
def closedWhileReceiving : List (Action .standard) :=
  [.resumeElsewhere 0 0, .importInbox 0, .suspendElsewhere 0, .resumeElsewhere 0 1,
    .chanReceive 0 true, .resumeElsewhere 0 0, .inboxClose 0]

def isStale (s : State) : Action .standard → Bool
  | .fiberInterrupt v g =>
      ((s.vms v).fibers g).interrupter == .receive && (s.vms v).recvFiber != some g
  | _ => false

theorem isStale_iff (s : State) (a : Action .standard) : isStale s a = true ↔ staleInterrupt s a := by
  cases a <;> simp [isStale, staleInterrupt]

theorem chan_receive_woken_once_closed :
    ∃ s, Reachable Initial (restrict (fun s a => ¬ staleInterrupt s a) (Step .standard)) s ∧
      s.suspension (0, 1) = .receiving 1 ∧ (s.vms 0).claims 1 = [some .channelClosed] ∧ WokenOnce s := by
  have hrun : (runIf (fun s a => !isStale s a) (State.initial true) closedWhileReceiving).map
      (fun s => (s.suspension (0, 1), (s.vms 0).claims 1)) =
        some (.receiving 1, [some .channelClosed]) := by decide +kernel
  obtain ⟨s, hs, hobs⟩ := Option.map_eq_some_iff.mp hrun
  have hreach := reachable_of_runIf ⟨_, ⟨true, rfl⟩, .refl⟩ hs
  simp only [Bool.not_eq_true', ← Bool.not_eq_true, isStale_iff] at hreach
  obtain ⟨hsusp, hclaims⟩ := Prod.ext_iff.mp hobs
  exact ⟨s, hreach, hsusp, hclaims, (chan_receive_woken_once hreach).1⟩

/-- A posted resume of no fiber. -/
def isStaleResume : Handler → Bool
  | .resume none _ => true
  | _ => false

/-- Interrupting a fiber whose receive has been ended by `inbox:close` posts a
resume of no fiber. -/
theorem stale_interrupt_posts_no_fiber :
    ∃ s, Reachable Initial (Step .standard) s ∧ ¬ WokenOnce s := by
  have hrun : (runIf (fun _ _ => true) (State.initial true)
      (closedWhileReceiving ++ [.fiberInterrupt 0 1])).map
        (fun s => (s.vms 0).strand.any isStaleResume) = some true := by
    decide +kernel
  obtain ⟨s, hs, hobs⟩ := Option.map_eq_some_iff.mp hrun
  refine ⟨s, (reachable_of_runIf ⟨_, ⟨true, rfl⟩, .refl⟩ hs).of_restrict, fun h => ?_⟩
  obtain ⟨x, hx, hnone⟩ := List.any_eq_true.mp hobs
  cases x with
  | resume fiber error =>
      cases fiber with
      | none => exact h.named 0 error hx
      | some f => cases hnone
  | _ => cases hnone

end Emilua.Actor
