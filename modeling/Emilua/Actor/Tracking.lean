import Emilua.Actor.Accounts

/-!
The channels run the rendezvous protocol: the phase of a party is what its
fiber is suspended in together with the place that holds the fiber. The
operations are made of updates that pass a fiber from one place to another, or
suspend or resume it; each is a step of the protocol or none. In the middle of
an operation a fiber can be in no place, but at hand.
-/
namespace Emilua.Actor
open Emilua Ipc Token Relation

abbrev Phase := Rendezvous.Phase VmId WakeError

abbrev Protocol := Rendezvous.State Party VmId WakeError

/-- Suspended in a call of the channels. -/
def Suspension.blocked : Suspension → Bool
  | .sending _ _ | .receiving _ => true
  | .running | .elsewhere | .finished => false

inductive Tracks (valid : Bool) : Suspension → Option Place → Phase → Prop where
  | free {x} (hx : x.blocked = false) : Tracks valid x none .idle
  | posted (n d) : Tracks valid (.sending n d) (some (.posted d n)) (.posted n d)
  | queued (n d) : Tracks valid (.sending n d) (some (.queued d n)) (.queued n d)
  | handing (n d) : Tracks valid (.sending n d) (some (.handing d)) (.handed n d)
  | answered (n d error) :
      Tracks valid (.sending n d) (some (.resuming error)) (.answered n d error)
  | waiting (k) (h : valid = true) : Tracks valid (.receiving k) (some .receiving) (.waiting k)
  | claimed (k error) : Tracks valid (.receiving k) (some (.resuming error)) (.claimed k error)
  | lost {x} (h : valid = false) (hx : x.blocked = true) : Tracks valid x none .lost

/-- `hand` is what the operation that is going on holds, and `strict` rules out
a posted resume of no fiber. -/
structure Tracked (strict : Prop) (hand : Held) (s : State) (b : Protocol)
    (place : Party → Option Place) : Prop where
  bounded : s.Bounded
  named : strict → (s.held + hand).2 = 0
  located : Located (s.held + hand).1 place
  tracks : ∀ p, Tracks (s.vms p.1).valid (s.suspension p) (place p) (b.phase p)
  hist : b.hist = s.hist
  next : b.next = s.fresh

def Simulates (strict : Prop) (hand : Held) (s : State) (b : Protocol) : Prop :=
  ∃ place, Tracked strict hand s b place

/-- From `b` the protocol gets to where the state is. -/
def Leads (strict : Prop) (hand : Held) (b : Protocol) (s : State) : Prop :=
  ∃ b', ReflTransGen Rendezvous.Step b b' ∧ Simulates strict hand s b'

/-- Nobody is suspended or resumed, and no VM is closed. -/
structure State.Still (s s' : State) : Prop where
  valid : ∀ u, (s'.vms u).valid = (s.vms u).valid
  suspension : ∀ p, s'.suspension p = s.suspension p

section
variable {strict : Prop} {hand hand' : Held} {s s' : State} {b b' : Protocol}
  {place : Party → Option Place} {v : VmId}

namespace State.Still

theorem refl (s : State) : s.Still s := ⟨fun _ => rfl, fun _ => rfl⟩

theorem modify {g : Vm → Vm} (hvalid : (g (s.vms v)).valid = (s.vms v).valid)
    (hfibers : ∀ f, ((g (s.vms v)).fibers f).suspension = ((s.vms v).fibers f).suspension) :
    s.Still (s.modify v g) := by
  refine ⟨fun u => ?_, fun p => ?_⟩
  · exact modify_vms_cases (Q := fun u m => m.valid = (s.vms u).valid) g hvalid (fun _ _ => rfl) u
  · exact modify_vms_cases (Q := fun u m => ∀ f, (m.fibers f).suspension = s.suspension (u, f)) g
      hfibers (fun _ _ _ => rfl) p.1 p.2

theorem post (s : State) (v : VmId) (h : Handler) : s.Still (s.post v h) :=
  modify rfl fun _ => rfl

theorem record (h : s.Still s') (hist : History) : s.Still (s'.record hist) :=
  ⟨h.valid, h.suspension⟩

theorem tick (h : s.Still s') : s.Still s'.tick := ⟨h.valid, h.suspension⟩

theorem of_recount (h : s.Recount s') : s.Still s' := by
  have hvm : ∀ u, (s'.vms u).valid = (s.vms u).valid ∧ (s'.vms u).fibers = (s.vms u).fibers := by
    intro u
    obtain ⟨k, n, a, heq⟩ := h.vm u
    rw [heq]
    exact ⟨rfl, rfl⟩
  refine ⟨fun u => (hvm u).1, fun p => ?_⟩
  rw [State.suspension, State.suspension, (hvm p.1).2]

end State.Still

theorem Simulates.leads (h : Simulates strict hand s b) : Leads strict hand b s := ⟨b, .refl, h⟩

theorem Leads.step (hstep : Rendezvous.Step b b') (h : Simulates strict hand s b') :
    Leads strict hand b s := ⟨b', .single hstep, h⟩

theorem Leads.bind (h : Leads strict hand b s)
    (h' : ∀ b', Simulates strict hand s b' → Leads strict hand' b' s') :
    Leads strict hand' b s' := by
  obtain ⟨b₁, hrun, hsim⟩ := h
  obtain ⟨b₂, hrun', hsim'⟩ := h' b₁ hsim
  exact ⟨b₂, hrun.trans hrun', hsim'⟩

namespace Tracked

theorem move (h : Tracked strict hand s b place) {p : Party} {l : Option Place} {φ : Phase}
    (hbounded : s'.Bounded)
    (hheld : s'.held + hand' + (at? p (place p), 0) = s.held + hand + (at? p l, 0))
    (hother : ∀ q, q ≠ p → s'.suspension q = s.suspension q)
    (hvalid : ∀ u, (s'.vms u).valid = (s.vms u).valid)
    (hnew : Tracks (s.vms p.1).valid (s'.suspension p) l φ)
    (hphase : b'.phase = Function.update b.phase p φ) (hhist : b'.hist = s'.hist)
    (hnext : b'.next = s'.fresh) : Tracked strict hand' s' b' (Function.update place p l) := by
  obtain ⟨hplaces, hnames⟩ := Prod.ext_iff.mp hheld
  refine ⟨hbounded, fun hstrict => ?_, h.located.move hplaces, fun q => ?_, hhist, hnext⟩
  · simpa [h.named hstrict] using hnames
  · rw [hphase, hvalid]
    by_cases hq : q = p
    · subst hq
      rwa [Function.update_self, Function.update_self]
    · rw [Function.update_of_ne hq, Function.update_of_ne hq, hother q hq]
      exact h.tracks q

/-- A held fiber is suspended in the call its place says. -/
theorem of_held (h : Tracked strict hand s b place) {x : Held} {l : Place} {p : Party}
    (htake : x + Held.one l p = s.held + hand) :
    place p = some l ∧ Tracks (s.vms p.1).valid (s.suspension p) (some l) (b.phase p) := by
  have hmem : (l, p) ∈ (s.held + hand).1 := by
    rw [← htake]
    exact Multiset.mem_add.mpr (.inr (Multiset.mem_singleton_self _))
  have hplace := h.located.place_of_mem hmem
  exact ⟨hplace, hplace ▸ h.tracks p⟩

end Tracked

namespace Simulates

theorem bounded (h : Simulates strict hand s b) : s.Bounded := by
  obtain ⟨place, h⟩ := h
  exact h.bounded

theorem lt_of_held (h : Simulates strict hand s b) {x : Held} {l : Place} {p : Party}
    (htake : x + Held.one l p = s.held + hand) : p.1 < s.vmCount := by
  obtain ⟨place, h⟩ := h
  refine h.bounded.lt_of_suspension fun heq => ?_
  have htracks := (h.of_held htake).2
  rw [heq] at htracks
  cases htracks

theorem rest (h : Simulates strict hand s b) (hbounded : s'.Bounded)
    (hheld : s'.held + hand' = s.held + hand)
    (hvalid : ∀ u, (s'.vms u).valid = (s.vms u).valid)
    (hsusp : ∀ p, s'.suspension p = s.suspension p ∨
      (s'.suspension p).blocked = false ∧ (s.suspension p).blocked = false)
    (hhist : s'.hist = s.hist) (hfresh : s.fresh ≤ s'.fresh) : Leads strict hand' b s' := by
  obtain ⟨place, h⟩ := h
  refine .step (.tick (s'.fresh - s.fresh)) ⟨place, hbounded, ?_, ?_, fun p => ?_, ?_, ?_⟩
  · rw [hheld]
    exact h.named
  · rw [hheld]
    exact h.located
  · have htracks := h.tracks p
    rw [hvalid]
    rcases hsusp p with heq | ⟨hnew, hold⟩
    · rwa [heq]
    · generalize place p = l, s.suspension p = x at htracks hold
      dsimp only
      generalize b.phase p = φ at htracks ⊢
      cases htracks with
      | free => exact .free hnew
      | lost _ hx => exact absurd (hx.symm.trans hold) (by simp)
      | _ => cases hold
  · exact h.hist.trans hhist.symm
  · change b.next + (s'.fresh - s.fresh) = s'.fresh
    rw [h.next]
    omega

theorem still (h : Simulates strict hand s b) (hbounded : s'.Bounded)
    (hheld : s'.held + hand' = s.held + hand) (hstill : s.Still s') (hhist : s'.hist = s.hist)
    (hfresh : s.fresh ≤ s'.fresh) : Leads strict hand' b s' :=
  h.rest hbounded hheld hstill.valid (fun p => .inl (hstill.suspension p)) hhist hfresh

theorem recount (h : Simulates strict hand s b) (hrecount : s.Recount s') : Leads strict hand b s' :=
  h.still (hrecount.bounded h.bounded) (by rw [hrecount.held_eq]) (.of_recount hrecount)
    hrecount.hist hrecount.fresh

/-- A modification of one VM that holds the same fibers as before. -/
theorem modify (h : Simulates strict hand s b) (hv : v < s.vmCount) {g : Vm → Vm}
    (hheld : (g (s.vms v)).held v = (s.vms v).held v)
    (hvalid : (g (s.vms v)).valid = (s.vms v).valid)
    (hsusp : ∀ f, ((g (s.vms v)).fibers f).suspension = ((s.vms v).fibers f).suspension ∨
      ((g (s.vms v)).fibers f).suspension.blocked = false ∧
        ((s.vms v).fibers f).suspension.blocked = false) : Leads strict hand b (s.modify v g) := by
  refine h.rest (h.bounded.modify hv g) (by rw [State.held_modify_eq hheld]) ?_ (fun p => ?_) rfl le_rfl
  · exact State.modify_vms_cases (Q := fun u m => m.valid = (s.vms u).valid) g hvalid fun _ _ => rfl
  · exact State.modify_vms_cases (Q := fun u m => ∀ f, (m.fibers f).suspension = s.suspension (u, f) ∨
      (m.fibers f).suspension.blocked = false ∧ (s.suspension (u, f)).blocked = false) g hsusp
      (fun _ _ _ => .inl rfl) p.1 p.2

/-- A modification of one VM that takes something out of it. -/
theorem take (h : Simulates strict hand s b) (hv : v < s.vmCount) {g : Vm → Vm} {x : Held}
    (hheld : (g (s.vms v)).held v + x = (s.vms v).held v)
    (hvalid : (g (s.vms v)).valid = (s.vms v).valid)
    (hfibers : ∀ f, ((g (s.vms v)).fibers f).suspension = ((s.vms v).fibers f).suspension) :
    Leads strict (x + hand) b (s.modify v g) := by
  refine h.still (h.bounded.modify hv g) ?_ (.modify hvalid hfibers) rfl le_rfl
  rw [← add_assoc, State.held_modify_take hv hheld]

end Simulates

/-- How a held fiber changes places without being resumed. -/
inductive Pass (p : Party) (h : History) : Place → Place → History → Prop where
  | enqueue (d n) : Pass p h (.posted d n) (.queued d n) h
  | refusePosted (d n error) : Pass p h (.posted d n) (.resuming (some error)) h
  | refuseQueued (d n error) : Pass p h (.queued d n) (.resuming (some error)) h
  | take (d n) : Pass p h (.queued d n) (.resuming none) (h.deliver ⟨n, p, d⟩)
  | hand (d n) : Pass p h (.posted d n) (.handing d) (h.deliver ⟨n, p, d⟩)
  | announce (d) : Pass p h (.handing d) (.resuming none) h
  | claim (error) : Pass p h .receiving (.resuming error) h

theorem Simulates.pass {p : Party} {l l' : Place} (h : Simulates strict (Held.one l p + hand) s b)
    (hpass : Pass p s.hist l l' s'.hist) (hbounded : s'.Bounded) (hstill : s.Still s')
    (hheld : s'.held = s.held + Held.one l' p) (hfresh : s'.fresh = s.fresh) :
    Leads strict hand b s' := by
  obtain ⟨place, h⟩ := h
  obtain ⟨hplace, htracks⟩ := h.of_held (x := s.held + hand) (by abel)
  have hmoved : s'.held + hand + (at? p (place p), 0) =
      s.held + (Held.one l p + hand) + (at? p (some l'), 0) := by
    rw [hplace, hheld]
    simp only [at?_some, Held.one]
    abel
  have hmove : ∀ {b' : Protocol} {φ}, Tracks (s.vms p.1).valid (s.suspension p) (some l') φ →
      b'.phase = Function.update b.phase p φ → b'.hist = s'.hist → b'.next = s.fresh →
      Simulates strict hand s' b' := fun hnew hphase hhist hnext =>
    ⟨_, h.move hbounded hmoved (fun q _ => hstill.suspension q) hstill.valid
      (hstill.suspension p ▸ hnew) hphase hhist (hnext.trans hfresh.symm)⟩
  clear hmoved
  generalize hφ : b.phase p = φ at htracks
  generalize s'.hist = hist' at hpass hmove
  generalize s.suspension p = y at htracks hmove
  cases hpass with
  | enqueue =>
      cases htracks
      exact .step (.enqueue hφ) (hmove (.queued ..) rfl h.hist h.next)
  | refusePosted d n error =>
      cases htracks
      exact .step (.refuse error (.inl hφ)) (hmove (.answered ..) rfl h.hist h.next)
  | refuseQueued d n error =>
      cases htracks
      exact .step (.refuse error (.inr hφ)) (hmove (.answered ..) rfl h.hist h.next)
  | take =>
      cases htracks
      exact .step (.take hφ) (hmove (.answered ..) rfl (by rw [h.hist]) h.next)
  | hand =>
      cases htracks
      exact .step (.hand hφ) (hmove (.handing ..) rfl (by rw [h.hist]) h.next)
  | announce =>
      cases htracks
      exact .step (.announce hφ) (hmove (.answered ..) rfl h.hist h.next)
  | claim error =>
      cases htracks
      exact .step (.claim error hφ) (hmove (.claimed ..) rfl h.hist h.next)

theorem State.suspension_modify_ne {g : Vm → Vm} {f : FiberId}
    (hg : ∀ f', f' ≠ f → ((g (s.vms v)).fibers f').suspension = ((s.vms v).fibers f').suspension)
    {q : Party} (hq : q ≠ (v, f)) : (s.modify v g).suspension q = s.suspension q := by
  refine State.modify_vms_cases (Q := fun u m => u = q.1 → (m.fibers q.2).suspension = s.suspension q)
    g ?_ ?_ q.1 rfl
  · rintro rfl
    exact hg q.2 fun hf => hq (Prod.ext rfl hf)
  · rintro u - rfl
    rfl

namespace Tracked

theorem idle (h : Tracked strict hand s b place) {p : Party} (hp : (s.suspension p).blocked = false) :
    place p = none ∧ b.phase p = .idle := by
  have htracks := h.tracks p
  generalize place p = l, b.phase p = φ, s.suspension p = x at htracks hp
  cases htracks with
  | free => exact ⟨rfl, rfl⟩
  | lost _ hx => exact absurd (hx.symm.trans hp) (by simp)
  | _ => cases hp

/-- A fiber that is not blocked gets suspended in a call. -/
theorem suspend (h : Tracked strict hand s b place) {p : Party} {l : Place} {φ : Phase}
    (hp : (s.suspension p).blocked = false) (hbounded : s'.Bounded)
    (hheld : s'.held = s.held + Held.one l p)
    (hother : ∀ q, q ≠ p → s'.suspension q = s.suspension q)
    (hvalid : ∀ u, (s'.vms u).valid = (s.vms u).valid)
    (hnew : Tracks (s.vms p.1).valid (s'.suspension p) (some l) φ)
    (hphase : b'.phase = Function.update b.phase p φ) (hhist : b'.hist = s'.hist)
    (hnext : b'.next = s'.fresh) : Simulates strict hand s' b' := by
  refine ⟨_, h.move hbounded ?_ hother hvalid hnew hphase hhist hnext⟩
  rw [(h.idle hp).1, hheld]
  simp only [at?_none, at?_some, Held.one]
  abel

/-- A fiber whose resume is at hand is running again. -/
theorem resume {l : Place} {p : Party} (h : Tracked strict (Held.one l p + hand) s b place)
    (hplace : place p = some l) (hbounded : s'.Bounded) (hheld : s'.held = s.held)
    (hother : ∀ q, q ≠ p → s'.suspension q = s.suspension q)
    (hvalid : ∀ u, (s'.vms u).valid = (s.vms u).valid) {φ : Phase}
    (hnew : Tracks (s.vms p.1).valid (s'.suspension p) none φ)
    (hphase : b'.phase = Function.update b.phase p φ) (hhist : b'.hist = s'.hist)
    (hnext : b'.next = s'.fresh) : Simulates strict hand s' b' := by
  refine ⟨_, h.move hbounded ?_ hother hvalid hnew hphase hhist hnext⟩
  rw [hplace, hheld]
  simp only [at?_none, at?_some, Held.one]
  abel

end Tracked

theorem Simulates.fiberResume {l : Place} {f : FiberId} {error : Option WakeError}
    (h : Simulates strict (Held.one l (v, f) + hand) s b)
    (hl : l = .receiving ∨ l = .resuming error) :
    ∃ s', s.fiberResume v (some f) error = .ok s' ∧ Leads strict hand b s' := by
  obtain ⟨place, h⟩ := h
  obtain ⟨hplace, htracks⟩ := h.of_held (x := s.held + hand) (by abel)
  have hv : v < s.vmCount := Simulates.lt_of_held ⟨place, h⟩ (x := s.held + hand) (p := (v, f)) (by abel)
  generalize hφ : b.phase (v, f) = φ at htracks
  cases hvalid : (s.vms v).valid with
  | false =>
      -- the strand of a closed VM still runs, but nobody is resumed
      refine ⟨s, State.fiberResume_of_invalid _ _ hvalid, ?_⟩
      have hresuming : l = .resuming error := by
        rcases hl with rfl | rfl
        · generalize s.suspension (v, f) = x at htracks
          cases htracks with
          | waiting k hv => exact absurd (hv.symm.trans hvalid) (by simp)
        · rfl
      have hlose : (φ.receive?.isSome ∨ ∃ n d o, φ = .answered n d o) ∧
          (s.suspension (v, f)).blocked = true := by
        subst hresuming
        generalize s.suspension (v, f) = x at htracks
        cases htracks with
        | answered => exact ⟨.inr ⟨_, _, _, rfl⟩, rfl⟩
        | claimed => exact ⟨.inl rfl, rfl⟩
      exact .step (.lose (hφ ▸ hlose.1)) (h.resume hplace h.bounded rfl (fun _ _ => rfl) (fun _ => rfl)
        (.lost hvalid hlose.2) rfl h.hist h.next)
  | true =>
      have hrun : ∀ {b' : Protocol} {hist : History}, b'.phase = Function.update b.phase (v, f) .idle →
          b'.hist = hist → b'.next = s.fresh →
          Simulates strict hand ((s.modify v (Vm.resumed · f)).record hist) b' := by
        intro b' hist hphase hhist hnext
        refine h.resume hplace (h.bounded.modify hv (Vm.resumed · f)) ?_ (fun q hq => ?_) ?_ ?_
          hphase hhist hnext
        · rw [State.held_record, State.held_modify_eq (Vm.held_eq rfl rfl rfl rfl)]
        · exact State.suspension_modify_ne (g := (Vm.resumed · f))
            (fun _ hf => Vm.resumed_suspension_ne _ hf) hq
        · exact State.modify_vms_cases (Q := fun u m => m.valid = (s.vms u).valid) (Vm.resumed · f)
            rfl fun _ _ => rfl
        · refine .free ?_
          rw [State.suspension, State.record_vms, State.modify_vms_self, Vm.resumed_suspension_self]
          rfl
      rcases hl with rfl | rfl
      · generalize hx : s.suspension (v, f) = x at htracks
        cases htracks with
        | waiting k =>
            refine ⟨_, State.fiberResume_of_resumed hvalid (by rw [hx]; rfl), ?_⟩
            exact .step (.wake error (.inl hφ)) (hrun rfl (by rw [h.hist]) h.next)
      · generalize hx : s.suspension (v, f) = x at htracks
        cases htracks with
        | answered n d =>
            refine ⟨_, State.fiberResume_of_resumed hvalid (by rw [hx]; rfl), ?_⟩
            exact .step (.complete hφ) (hrun rfl (by rw [h.hist]) h.next)
        | claimed k =>
            refine ⟨_, State.fiberResume_of_resumed hvalid (by rw [hx]; rfl), ?_⟩
            exact .step (.wake error (.inr hφ)) (hrun rfl (by rw [h.hist]) h.next)

theorem Simulates.rehand (h : Simulates strict hand s b) (hheld : hand'.1 = hand.1)
    (hnamed : strict → hand'.2 ≤ hand.2) : Simulates strict hand' s b := by
  obtain ⟨place, h⟩ := h
  refine ⟨place, h.bounded, fun hstrict => ?_, ?_, h.tracks, h.hist, h.next⟩
  · have := h.named hstrict
    have := hnamed hstrict
    simp only [Prod.snd_add] at *
    omega
  · rw [Prod.fst_add, hheld]
    exact h.located

theorem Tracks.invalidate {valid : Bool} {x : Suspension} {l : Option Place} {φ : Phase}
    (h : Tracks valid x l φ) (hl : l ≠ some .receiving) : Tracks false x l φ := by
  cases h with
  | free hx => exact .free hx
  | posted => exact .posted ..
  | queued => exact .queued ..
  | handing => exact .handing ..
  | answered => exact .answered ..
  | waiting => exact absurd rfl hl
  | claimed => exact .claimed ..
  | lost _ hx => exact .lost rfl hx

theorem Tracked.recvFiber_of_place (h : Tracked strict 0 s b place) {p : Party}
    (hp : place p = some .receiving) : (s.vms p.1).recvFiber = some p.2 := by
  have hmem := h.located.mem_of_place hp
  rw [add_zero, State.mem_held] at hmem
  obtain ⟨u, -, rfl, hrecv⟩ := hmem
  exact hrecv

theorem Simulates.invalidate (h : Simulates strict 0 s b) (hv : v < s.vmCount) :
    Leads strict 0 b (s.modify v Vm.invalidated) := by
  obtain ⟨place, h⟩ := h
  have hvalid : ∀ u, ((s.modify v Vm.invalidated).vms u).valid = if u = v then false else (s.vms u).valid :=
    State.modify_vms_cases (Q := fun u m => m.valid = if u = v then false else (s.vms u).valid) _
      (by simp [Vm.invalidated]) fun u hu => by simp [hu]
  have hsusp : ∀ p, (s.modify v Vm.invalidated).suspension p = s.suspension p := fun p =>
    State.modify_vms_cases (Q := fun u m => ∀ f, (m.fibers f).suspension = s.suspension (u, f)) _
      (fun _ => rfl) (fun _ _ _ => rfl) p.1 p.2
  have htracks : ∀ q, (q.1 = v → (s.vms v).recvFiber ≠ some q.2) →
      Tracks ((s.modify v Vm.invalidated).vms q.1).valid ((s.modify v Vm.invalidated).suspension q)
        (place q) (b.phase q) := by
    intro q hq
    rw [hvalid, hsusp]
    split
    · next hqv =>
        exact (h.tracks q).invalidate fun hplace => hq hqv (hqv ▸ h.recvFiber_of_place hplace)
    · exact h.tracks q
  cases hrecv : (s.vms v).recvFiber with
  | none =>
      have hheld : (s.modify v Vm.invalidated).held = s.held :=
        State.held_modify_eq (Vm.held_eq rfl rfl rfl hrecv.symm)
      refine Simulates.leads ⟨place, h.bounded.modify hv _, ?_, ?_, fun q => ?_, h.hist, h.next⟩
      · rw [hheld]
        exact h.named
      · rw [hheld]
        exact h.located
      · exact htracks q (by simp [hrecv])
  | some f =>
      -- the fiber that waits is the only one whose place goes
      have hheld : (s.modify v Vm.invalidated).held + Held.one .receiving (v, f) = s.held := by
        refine State.held_modify_take hv ?_
        simp only [Vm.held, Vm.invalidated, hrecv, Option.elim]
        abel
      have hplace := (h.of_held (l := .receiving) (p := (v, f)) (by rw [hheld, add_zero])).1
      have htracks' := h.tracks (v, f)
      rw [hplace] at htracks'
      have hlost : (b.phase (v, f)).receive?.isSome ∧ (s.suspension (v, f)).blocked = true := by
        generalize s.suspension (v, f) = x, b.phase (v, f) = φ at htracks'
        cases htracks'
        exact ⟨rfl, rfl⟩
      refine .step (.lose (.inl hlost.1)) ⟨Function.update place (v, f) none, h.bounded.modify hv _,
        fun hstrict => ?_, ?_, fun q => ?_, h.hist, h.next⟩
      · have hnamed := h.named hstrict
        rw [← hheld] at hnamed
        simpa [Held.one] using hnamed
      · refine h.located.move (p := (v, f)) (o := none) ?_
        rw [hplace, ← hheld]
        simp [Held.one]
      · by_cases hq : q = (v, f)
        · subst hq
          rw [Function.update_self, hvalid, hsusp, if_pos rfl, Rendezvous.State.set_phase_self]
          exact .lost rfl hlost.2
        · rw [Function.update_of_ne hq, Rendezvous.State.set_phase_ne _ hq]
          refine htracks q fun hqv hrecvq => hq (Prod.ext hqv ?_)
          rw [hrecv, Option.some.injEq] at hrecvq
          exact hrecvq.symm

end

end Emilua.Actor
