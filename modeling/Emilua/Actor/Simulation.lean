import Emilua.Actor.Tracking
import Emilua.Actor.Scheduling

/-!
Every action of a process is a sequence of steps of the rendezvous protocol,
and none resumes a fiber that is not suspended.
-/
namespace Emilua.Actor
open Emilua Ipc Token Relation

/-- The outcome of an operation, seen from the protocol. -/
def Safe (strict : Prop) (hand : Held) (b : Protocol) : ExecM State → Prop
  | .ok s => Leads strict hand b s
  | .error fault => fault ≠ .notSuspended ∧ (strict → fault ≠ .nullFiber)

section
variable {strict : Prop} {hand hand' : Held} {s s' : State} {b b' : Protocol} {v : VmId}

theorem Leads.safe (h : Leads strict hand b s)
    {x : ExecM State} (h' : ∀ b', Simulates strict hand s b' → Safe strict hand' b' x) :
    Safe strict hand' b x := by
  obtain ⟨b₁, hrun, hsim⟩ := h
  have hsafe := h' b₁ hsim
  cases x with
  | error fault => exact hsafe
  | ok s' =>
      obtain ⟨b₂, hrun', hsim'⟩ := hsafe
      exact ⟨b₂, hrun.trans hrun', hsim'⟩

theorem Safe.bind {x : ExecM State} {k : State → ExecM State} (hx : Safe strict hand b x)
    (hk : ∀ s b', x = .ok s → Simulates strict hand s b' → Safe strict hand' b' (k s)) :
    Safe strict hand' b (x >>= k) := by
  cases x with
  | error fault => exact hx
  | ok s => exact Leads.safe hx fun b' hsim => hk s b' rfl hsim

namespace Simulates

/-- A fiber at hand is answered: its resume is posted. -/
theorem answer {p : Party} {l : Place} {error : Option WakeError} {hist : History}
    (h : Simulates strict (Held.one l p + hand) s b) (hpass : Pass p s.hist l (.resuming error) hist) :
    Leads strict hand b ((s.post p.1 (.resume (some p.2) error)).record hist) := by
  have hp : p.1 < s.vmCount := h.lt_of_held (x := s.held + hand) (l := l) (by abel)
  refine h.pass hpass ((h.bounded.post hp _).record hist)
    ((State.Still.post ..).record hist) ?_ rfl
  rw [State.held_record, State.held_post hp]
  rfl

theorem yield (h : Simulates strict hand s b) (hv : v < s.vmCount) : Leads strict hand b (s.yield v) := by
  rw [State.yield]
  cases hcont : (s.vms v).cont with
  | none =>
      refine h.modify hv ?_ rfl fun _ => .inl rfl
      exact Vm.held_eq rfl rfl hcont.symm rfl
  | some p =>
      refine Leads.bind (h.take hv (x := Held.one (.handing v) p) ?_ rfl fun _ => rfl)
        fun b' h' => h'.answer (.announce v)
      simp only [Vm.held, hcont, Option.elim]
      abel

theorem destroySender {p : Party} {l : Place} (h : Simulates strict (Held.one l p + hand) s b)
    (hpass : Pass p s.hist l (.resuming (some .channelClosed)) s.hist) (msg : Value) (id : Nat) :
    Safe strict hand b (s.destroySender ⟨some p.1, p.2, msg, true, id⟩) :=
  Leads.bind (h.answer hpass) fun _ h' => h'.recount (.dropAddresses _ _)

theorem clearIncoming (h : Simulates strict hand s b) (hv : v < s.vmCount) {es : List SenderState}
    (hincoming : (s.vms v).incoming = es) : Safe strict hand b (s.clearIncoming v es) := by
  induction es generalizing s b with
  | nil => exact h.leads
  | cons e es ih =>
      rw [State.clearIncoming]
      cases hvm : e.vm with
      | none =>
          -- the destructor of an entry without a sender
          simp only [State.destroySender, if_true]
          exact ⟨by simp, by simp⟩
      | some u =>
          have htake := h.take hv (g := fun m => { m with incoming := es })
            (x := Held.one (.queued v e.id) (u, e.fiber))
            (by
              simp only [Vm.held, hincoming, List.map_cons, List.sum_cons, SenderState.held, hvm,
                Option.elim]
              abel)
            rfl (fun _ => rfl)
          refine htake.safe fun b₁ h₁ => ?_
          have hdestroy := h₁.destroySender (.refuseQueued v e.id .channelClosed) e.msg e.id
          refine hdestroy.bind fun s₂ b₂ hs₂ h₂ => ?_
          have hs₂ : ((s.modify v fun m => { m with incoming := es }).post u
              (.resume (some e.fiber) (some .channelClosed))).Recount s₂ := by
            cases hs₂
            exact .dropAddresses _ _
          refine ih h₂ (by simpa [hs₂.vmCount] using hv) ?_
          obtain ⟨k, n, a, hvms⟩ := hs₂.vm v
          rw [hvms, State.post_vms]
          simp

theorem copyAddresses_fresh (s : State) (ds : List VmId) : (s.copyAddresses ds).fresh = s.fresh := by
  induction ds generalizing s with
  | nil => rfl
  | cons d ds ih =>
      refine (ih (s.copyAddress d)).trans ?_
      rw [State.copyAddress]
      split <;> rfl

theorem chanSend (h : Simulates strict hand s b) {f : FiberId} (hrun : s.suspension (v, f) = .running)
    {d : VmId} (hd : (s.vms d).alive = true) (handle : Nat) (msg : Value) :
    Leads strict hand b (s.chanSend v f handle d msg) := by
  have hcopy := State.Recount.copyAddresses s msg.addresses
  have hd := h.bounded.lt_of_alive hd
  have hv : v < s.vmCount := h.bounded.lt_of_suspension (p := (v, f)) (by simp [hrun])
  refine Leads.bind (h.recount hcopy) fun b₁ h₁ => ?_
  have hrun₁ := (State.Still.of_recount hcopy).suspension (v, f)
  have hfresh := copyAddresses_fresh s msg.addresses
  have hhist := hcopy.hist
  rw [← hcopy.vmCount] at hd hv
  rw [State.chanSend]
  generalize s.copyAddresses msg.addresses = s₁ at *
  rw [hrun] at hrun₁
  rw [← hfresh, ← hhist]
  let g : Vm → Vm := (Vm.switch · f (.send handle d) (.sending s₁.fresh d))
  let s₂ : State := (s₁.record (s₁.hist.send ⟨s₁.fresh, (v, f), d⟩)).tick
  have hsend : Leads strict hand b₁ ((s₂.modify v g).post d (.deliver (v, f) msg s₁.fresh)) := by
    obtain ⟨place, h₁⟩ := h₁
    have hfree : (s₁.suspension (v, f)).blocked = false := by rw [hrun₁]; rfl
    refine .step (.send d (h₁.idle hfree).2)
      (h₁.suspend (l := .posted d s₁.fresh) hfree ?_ ?_ (fun q hq => ?_) (fun u => ?_) ?_ rfl ?_ ?_)
    · exact (h₁.bounded.modify hv g).post hd _
    · rw [State.held_post (s := s₂.modify v g) hd,
        State.held_modify_eq (s := s₂) (g := g) (Vm.held_eq rfl rfl rfl rfl)]
      rfl
    · rw [(State.Still.post ..).suspension q]
      exact State.suspension_modify_ne (s := s₂) (g := g)
        (fun _ hf => Vm.switch_suspension_ne _ hf ..) hq
    · rw [(State.Still.post ..).valid u]
      exact State.modify_vms_cases (Q := fun u m => m.valid = (s₁.vms u).valid) g rfl (fun _ _ => rfl) u
    · have hself : (s₂.modify v g).suspension (v, f) = .sending s₁.fresh d := by
        simp [State.suspension, g]
      rw [(State.Still.post ..).suspension, hself, h₁.next]
      exact .posted ..
    · rw [h₁.hist, h₁.next]
      rfl
    · rw [h₁.next]
      rfl
  refine Leads.bind hsend fun b₂ h₂ => h₂.yield ?_
  exact hv

theorem adopt (h : Simulates strict hand s b) (hv : v < s.vmCount) (ds : List VmId) :
    Leads strict hand b (s.adoptAddresses v ds) :=
  h.recount (.adoptAddresses hv ds)

theorem receiveQueuedEntry (h : Simulates strict hand s b) (hv : v < s.vmCount) {e : SenderState}
    {es : List SenderState} (hincoming : (s.vms v).incoming = e :: es) :
    Leads strict hand b (s.receiveQueuedEntry v e es) := by
  rw [State.receiveQueuedEntry]
  cases hvm : e.vm with
  | none =>
      have hdequeue : Leads strict hand b (s.modify v fun m => { m with incoming := es }) := by
        refine h.modify hv ?_ rfl fun _ => .inl rfl
        simp [Vm.held, hincoming, SenderState.held, hvm]
      exact Leads.bind hdequeue fun b₁ h₁ => h₁.adopt hv _
  | some u =>
      have hdequeue : Leads strict (Held.one (.queued v e.id) (u, e.fiber) + hand) b
          (s.modify v fun m => { m with incoming := es }) := by
        refine h.take hv ?_ rfl fun _ => rfl
        simp only [Vm.held, hincoming, List.map_cons, List.sum_cons, SenderState.held, hvm, Option.elim]
        abel
      exact Leads.bind hdequeue fun b₁ h₁ => Leads.bind (h₁.answer (.take v e.id)) fun b₂ h₂ =>
        h₂.adopt hv _

theorem waitForMessage (h : Simulates strict hand s b) {f : FiberId}
    (hrun : s.suspension (v, f) = .running) (hvalid : (s.vms v).valid = true)
    (hrecv : (s.vms v).recvFiber = none) : Leads strict hand b (s.waitForMessage v f) := by
  have hv := h.bounded.lt_of_valid hvalid
  rw [State.waitForMessage]
  let g : Vm → Vm := fun m =>
    { (m.switch f .receive (.receiving s.fresh)).enqueueServices with recvFiber := some f }
  have hwait : Leads strict hand b (s.modify v g).tick := by
    obtain ⟨place, h⟩ := h
    have hfree : (s.suspension (v, f)).blocked = false := by rw [hrun]; rfl
    refine .step (.receive (h.idle hfree).2)
      (h.suspend (l := .receiving) hfree ?_ ?_ (fun q hq => ?_) (fun u => ?_) ?_ rfl ?_ ?_)
    · exact h.bounded.modify hv g
    · refine State.held_modify_give hv ?_
      simp only [Vm.held, g, hrecv, Option.elim, add_zero]
      rfl
    · exact State.suspension_modify_ne (g := g) (fun _ hf => Vm.switch_suspension_ne _ hf ..) hq
    · exact State.modify_vms_cases (Q := fun u m => m.valid = (s.vms u).valid) g rfl (fun _ _ => rfl) u
    · have hself : (s.modify v g).tick.suspension (v, f) = .receiving s.fresh := by
        simp [State.suspension, g, Vm.enqueueServices]
      rw [hself, h.next]
      exact .waiting _ hvalid
    · exact h.hist
    · rw [h.next]
      rfl
  exact Leads.bind hwait fun b₁ h₁ => h₁.yield hv

theorem chanReceive (h : Simulates strict hand s b) {f : FiberId}
    (hrun : s.suspension (v, f) = .running) (hvalid : (s.vms v).valid = true) :
    Leads strict hand b (s.chanReceive v f) := by
  rw [State.chanReceive]
  split
  · exact h.leads
  · split
    · exact h.leads
    · next hrecv =>
        split
        · next hincoming => exact h.receiveQueuedEntry (h.bounded.lt_of_valid hvalid) hincoming
        · split
          · exact h.leads
          · exact h.waitForMessage hrun hvalid (by simpa using hrecv)

/-- The fiber that waits to receive is at hand once `recv_fiber` is reset. -/
theorem takeReceiver (h : Simulates strict hand s b) (hv : v < s.vmCount) {f : FiberId}
    (hrecv : (s.vms v).recvFiber = some f) :
    Leads strict (Held.one .receiving (v, f) + hand) b
      (s.modify v fun m => { m with recvFiber := none }) := by
  refine h.take hv ?_ rfl fun _ => rfl
  simp only [Vm.held, hrecv, Option.elim]
  abel

theorem claimReceiver (h : Simulates strict hand s b) (hv : v < s.vmCount) {f : FiberId}
    (hrecv : (s.vms v).recvFiber = some f) (error : Option WakeError) :
    Leads strict hand b ((s.modify v fun m => { m with recvFiber := none }).post v
      (.resume (some f) error)) :=
  Leads.bind (h.takeReceiver hv hrecv) fun _ h₁ => h₁.answer (.claim error)

theorem wakeReceiver (h : Simulates strict hand s b) (hv : v < s.vmCount) {f : FiberId}
    (hrecv : (s.vms v).recvFiber = some f) (error : Option WakeError) :
    Safe strict hand b
      ((s.modify v fun m => { m with recvFiber := none }).fiberResume v (some f) error) := by
  refine (h.takeReceiver hv hrecv).safe fun b₁ h₁ => ?_
  obtain ⟨s', hs', hleads⟩ := h₁.fiberResume (.inl rfl)
  rw [hs']
  exact hleads

theorem closeInbox (h : Simulates strict hand s b) (hv : v < s.vmCount) {es : List SenderState}
    (hincoming : (s.vms v).incoming = es) :
    Safe strict hand b ((s.modify v fun m => { m with isOpen := false }).clearIncoming v es) := by
  have hclose : Leads strict hand b (s.modify v fun m => { m with isOpen := false }) :=
    h.modify hv (Vm.held_eq rfl rfl rfl rfl) rfl fun _ => .inl rfl
  exact hclose.safe fun b₁ h₁ => h₁.clearIncoming hv (by simpa using hincoming)

theorem inboxClose (h : Simulates strict hand s b) (hv : v < s.vmCount) :
    Safe strict hand b (s.inboxClose v) := by
  rw [State.inboxClose]
  dsimp only
  split
  · exact h.leads
  · cases hrecv : (s.vms v).recvFiber with
    | none => exact h.closeInbox hv rfl
    | some g =>
        refine (h.claimReceiver hv hrecv (some .channelClosed)).safe fun b₁ h₁ => h₁.closeInbox hv ?_
        simp [State.post_vms]

theorem inboxGc (h : Simulates strict hand s b) (hv : v < s.vmCount)
    (hrecv : (s.vms v).recvFiber = none) : Safe strict hand b (s.inboxGc v) := by
  have hclose : Leads strict hand b
      (s.modify v fun m => { m with recvFiber := none, isOpen := false }) :=
    h.modify hv (Vm.held_eq rfl rfl rfl hrecv.symm) rfl fun _ => .inl rfl
  rw [State.inboxGc]
  split
  · exact h.leads
  · exact hclose.safe fun b₁ h₁ => h₁.clearIncoming hv (by simp)

/-- A handler that holds no fiber. -/
theorem post (h : Simulates strict hand s b) (hv : v < s.vmCount) {x : Handler} (hx : x.held v = 0) :
    Leads strict hand b (s.post v x) :=
  h.still (h.bounded.post hv x) (by rw [State.held_post hv, hx, add_zero]) (.post ..) rfl le_rfl

theorem fiberInterrupt (h : Simulates strict hand s b) (hv : v < s.vmCount) {g : FiberId}
    (hstrict : strict → ((s.vms v).fibers g).interrupter = .receive → (s.vms v).recvFiber ≠ none) :
    Safe strict hand b (s.fiberInterrupt v g) := by
  have hclear : ∀ {s : State} {b}, Simulates strict hand s b → v < s.vmCount → Leads strict hand b
      (s.modify v fun m => m.setFiber g fun g => { g with interrupter := .none }) := by
    intro s b h hv
    refine h.modify hv (Vm.held_eq rfl rfl rfl rfl) rfl fun f => .inl ?_
    by_cases hf : f = g
    · subst hf
      simp
    · rw [Vm.setFiber_fibers_ne _ hf]
  rw [State.fiberInterrupt]
  dsimp only
  split
  · exact h.leads
  · next handle d _ =>
      split
      · exact ⟨by simp, by simp⟩
      · split
        · next halive =>
            exact Leads.bind (h.post (h.bounded.lt_of_alive halive) rfl) fun b₁ h₁ => hclear h₁ hv
        · exact hclear h hv
  · next hint =>
      cases hrecv : (s.vms v).recvFiber with
      | none =>
          have hnot : ¬ strict := fun hs => hstrict hs hint hrecv
          have h : Simulates strict ((0, 1) + hand) s b := h.rehand (by simp) fun hs => absurd hs hnot
          have hreset : Leads strict ((0, 1) + hand) b (s.modify v fun m => { m with recvFiber := none }) :=
            h.modify hv (Vm.held_eq rfl rfl rfl hrecv.symm) rfl fun _ => .inl rfl
          refine hreset.bind fun b₁ h₁ => (?_ : Leads strict hand b₁ _).bind fun b₂ h₂ => hclear h₂ hv
          refine h₁.still (h₁.bounded.post hv _) ?_ (.post ..) rfl le_rfl
          rw [State.held_post (s := s.modify v fun m => { m with recvFiber := none }) hv, add_assoc]
          rfl
      | some f =>
          exact Leads.bind (h.claimReceiver hv hrecv (some .interrupted)) fun b₁ h₁ => hclear h₁ hv

/-- A fiber that is none of the channels' business goes on. -/
theorem resumed (h : Simulates strict hand s b) (hv : v < s.vmCount) {f : FiberId}
    (hfree : ((s.vms v).fibers f).suspension.blocked = false) :
    Leads strict hand b (s.modify v (Vm.resumed · f)) := by
  refine h.modify hv (Vm.held_eq rfl rfl rfl rfl) rfl fun f' => ?_
  by_cases hf : f' = f
  · subst hf
    right
    rw [Vm.resumed_suspension_self]
    exact ⟨rfl, hfree⟩
  · left
    exact Vm.resumed_suspension_ne _ hf

theorem addVm (h : Simulates strict hand s b) (n : Nat) :
    Leads strict hand b (s.addVm (Vm.fresh n)) := by
  obtain ⟨place, h⟩ := h
  have hheld : (s.addVm (Vm.fresh n)).held = s.held := total_succ Vm.held s.vms (by simp [Vm.held, Vm.fresh])
  have habsent := h.bounded s.vmCount le_rfl
  refine Simulates.leads ⟨place, fun u hu => ?_, ?_, ?_, fun p => ?_, h.hist, h.next⟩
  · rw [State.addVm_vms_ne s (Nat.ne_of_gt hu)]
    exact h.bounded u (Nat.le_of_succ_le hu)
  · rw [hheld]
    exact h.named
  · rw [hheld]
    exact h.located
  · by_cases hp : p.1 = s.vmCount
    · have hidle := h.idle (p := p) (by rw [State.suspension, hp, habsent]; rfl)
      rw [hidle.1, hidle.2, State.suspension, hp, State.addVm_vms_self]
      exact .free rfl
    · rw [State.suspension, State.addVm_vms_ne s hp]
      exact h.tracks p

theorem exportAddress (h : Simulates strict hand s b) (d : VmId) :
    Leads strict hand b (s.exportAddress d) := by
  rw [State.exportAddress]
  split
  · next halive =>
      have hd := h.bounded.lt_of_alive halive
      have hcount : Leads strict hand b (s.modify d fun m => { m with nsenders := m.nsenders + 1 }) :=
        h.modify hd (Vm.held_eq rfl rfl rfl rfl) rfl fun _ => .inl rfl
      refine Leads.bind hcount fun b₁ h₁ =>
        Leads.bind (h₁.post (x := .attachService s.fresh) hd rfl) fun b₂ h₂ => ?_
      exact h₂.still h₂.bounded.tick rfl (State.Still.refl _).tick rfl (Nat.le_succ _)
  · exact h.leads

theorem exportInbox (h : Simulates strict hand s b) (hv : v < s.vmCount) :
    Leads strict hand b (s.exportInbox v) := by
  have hattach : Leads strict hand b (s.modify v fun m =>
      { m with nsenders := m.nsenders + 1, services := m.services ++ [⟨s.fresh, false⟩] }) :=
    h.modify hv (Vm.held_eq rfl rfl rfl rfl) rfl fun _ => .inl rfl
  refine Leads.bind hattach fun b₁ h₁ => ?_
  exact h₁.still h₁.bounded.tick rfl (State.Still.refl _).tick rfl (Nat.le_succ _)

theorem spawnVm (h : Simulates strict hand s b) (hv : v < s.vmCount) :
    Leads strict hand b (s.spawnVm v) :=
  Leads.bind (h.addVm 1) fun _ h₁ => h₁.adopt (Nat.lt_succ_of_lt hv) [s.vmCount]

theorem vmClose (h : Simulates strict 0 s b) (hv : v < s.vmCount) :
    Safe strict 0 b (s.vmClose v) := by
  have hrelease : Leads strict 0 b (s.modify v fun m => { m with addresses := [] }) :=
    h.modify hv (Vm.held_eq rfl rfl rfl rfl) rfl fun _ => .inl rfl
  have hdrop := State.Recount.dropAddresses (s.modify v fun m => { m with addresses := [] })
    ((s.vms v).addresses.map Prod.snd)
  rw [State.vmClose]
  refine hrelease.safe fun b₁ h₁ => (h₁.recount hdrop).safe fun b₂ h₂ => ?_
  have hv₂ : v < (State.dropAddresses (s.modify v fun m => { m with addresses := [] })
      ((s.vms v).addresses.map Prod.snd)).vmCount := hdrop.vmCount.symm ▸ hv
  refine (h₂.invalidate hv₂).safe fun b₃ h₃ => ?_
  have hclear := h₃.clearIncoming hv₂ (show _ = (s.vms v).incoming by
    obtain ⟨k, n, a, hvms⟩ := hdrop.vm v
    rw [State.modify_vms_self, hvms]
    simp [Vm.invalidated])
  refine hclear.bind fun s₄ b₄ hs₄ h₄ => ?_
  have hv₄ : v < s₄.vmCount := (State.Frame.clearIncoming hs₄).vmCount.symm ▸ hv₂
  have hservices : Leads strict 0 b₄ (s₄.modify v fun m => { m with services := [] }) :=
    h₄.modify hv₄ (Vm.held_eq rfl rfl rfl rfl) rfl fun _ => .inl rfl
  exact hservices.bind fun b₅ h₅ => h₅.yield hv₄

theorem closeUnimported (h : Simulates strict hand s b) (hv : v < s.vmCount) (f : FiberId) :
    Safe strict hand b (s.closeUnimported v f) := by
  rw [State.closeUnimported]
  split
  · exact h.closeInbox hv rfl
  · exact h.leads

theorem closeUnimported_vmCount {f : FiberId} (h : s.closeUnimported v f = .ok s') :
    s'.vmCount = s.vmCount := by
  rw [State.closeUnimported] at h
  split at h
  · exact (State.Frame.clearIncoming h).vmCount
  · cases h
    rfl

theorem resumeJoiner (h : Simulates strict hand s b) (hv : v < s.vmCount) (joiner : Option FiberId) :
    Safe strict hand b (s.resumeJoiner v joiner) := by
  cases joiner with
  | none => exact h.yield hv
  | some g =>
      rw [State.resumeJoiner]
      split
      · next helse => exact h.resumed hv (by rw [helse]; rfl)
      · exact ⟨by simp, by simp⟩

theorem fiberEpilogue (h : Simulates strict hand s b) {f : FiberId}
    (hrun : s.suspension (v, f) = .running) (joiner : Option FiberId) :
    Safe strict hand b (s.fiberEpilogue v f joiner) := by
  have hv : v < s.vmCount := h.bounded.lt_of_suspension (p := (v, f)) (by simp [hrun])
  have hfinish : Leads strict hand b
      (s.modify v fun m => m.setFiber f fun g => { g with suspension := .finished }) := by
    refine h.modify hv (Vm.held_eq rfl rfl rfl rfl) rfl fun f' => ?_
    by_cases hf : f' = f
    · subst hf
      right
      rw [State.suspension] at hrun
      simp [hrun, Suspension.blocked]
    · left
      rw [Vm.setFiber_fibers_ne _ hf]
  rw [State.fiberEpilogue]
  refine hfinish.safe fun b₁ h₁ => (h₁.closeUnimported hv f).bind fun s₂ b₂ hs₂ h₂ => ?_
  exact h₂.resumeJoiner (closeUnimported_vmCount hs₂ ▸ hv) joiner

theorem handOver {p : Party} {id : Nat} (h : Simulates strict (Held.one (.posted v id) p + hand) s b)
    (hv : v < s.vmCount) {f : FiberId} (hrecv : (s.vms v).recvFiber = some f)
    (hcont : (s.vms v).cont = none) (msg : Value) :
    Safe strict hand b (s.handOver v f p msg id) := by
  rw [State.handOver]
  refine (h.wakeReceiver hv hrecv none).bind fun s₁ b₁ hs₁ h₁ => ?_
  have hsame : s₁.vmCount = s.vmCount ∧ (s₁.vms v).cont = none := by
    rcases State.fiberResume_cases hs₁ with ⟨-, rfl⟩ | ⟨-, g, hist, -, -, rfl⟩
    · exact ⟨rfl, by simpa using hcont⟩
    · exact ⟨rfl, by simpa [Vm.resumed, Vm.switch, Vm.setFiber, Vm.setInterrupter] using hcont⟩
  have hv₁ : v < s₁.vmCount := hsame.1 ▸ hv
  have hpass : Leads strict hand b₁ ((s₁.modify v fun m => { m with cont := some p }).record
      (s₁.hist.deliver ⟨id, p, v⟩)) := by
    refine h₁.pass (.hand v id) ((h₁.bounded.modify hv₁ _).record _)
      (State.Still.record (.modify rfl fun _ => rfl) _) ?_ rfl
    rw [State.held_record]
    refine State.held_modify_give hv₁ ?_
    simp only [Vm.held, hsame.2, Option.elim]
    abel
  exact hpass.bind fun b₂ h₂ => h₂.adopt hv₁ _

theorem deliver {p : Party} {id : Nat} (h : Simulates strict (Held.one (.posted v id) p + hand) s b)
    (hv : v < s.vmCount) (hcont : (s.vms v).cont = none) (msg : Value) :
    Safe strict hand b (s.deliver v p msg id) := by
  rw [State.deliver]
  split
  · exact h.destroySender (.refusePosted v id .channelClosed) msg id
  · split
    · refine h.pass (.enqueue v id) (h.bounded.modify hv _) (.modify rfl fun _ => rfl) ?_ rfl
      refine State.held_modify_give hv ?_
      simp only [Vm.held, List.map_append, List.sum_append, List.map_singleton, List.sum_singleton,
        SenderState.held, Option.elim]
      abel
    · next f hrecv => exact h.handOver hv hrecv hcont msg

theorem interruptSend (h : Simulates strict hand s b) (hv : v < s.vmCount) (u : VmId) (f : FiberId) :
    Leads strict hand b (s.interruptSend v u f) := by
  rw [State.interruptSend]
  dsimp only
  split
  · exact h.leads
  · next i hfind =>
      obtain ⟨hi, hmatch, -⟩ := List.findIdx?_eq_some_iff_getElem.mp hfind
      simp only [Bool.and_eq_true, beq_iff_eq] at hmatch
      have herase : Leads strict (Held.one (.queued v (s.vms v).incoming[i].id) (u, f) + hand) b
          (s.modify v fun m => { m with incoming := (s.vms v).incoming.eraseIdx i }) := by
        refine h.take hv ?_ rfl fun _ => rfl
        have hperm := ((List.getElem_cons_eraseIdx_perm hi).map (SenderState.held v)).sum_eq
        simp only [List.map_cons, List.sum_cons, SenderState.held, hmatch.1, hmatch.2, Option.elim] at hperm
        simp only [Vm.held, ← hperm]
        abel
      exact herase.bind fun b₁ h₁ => Leads.bind (h₁.recount (.dropAddresses _ _)) fun b₂ h₂ =>
        h₂.answer (.refuseQueued v _ .interrupted)

theorem noSenders (h : Simulates strict hand s b) (hv : v < s.vmCount) :
    Safe strict hand b (s.noSenders v) := by
  rw [State.noSenders]
  split
  · exact h.leads
  · split
    · exact h.leads
    · next f hrecv => exact h.wakeReceiver hv hrecv (some .noSenders)

theorem attachService (h : Simulates strict hand s b) (hv : v < s.vmCount) (id : Nat) :
    Leads strict hand b (s.attachService v id) := by
  have hsame : ∀ m : Vm, ∃ services waits, (if m.valid = false then m
      else if m.recvFiber.isSome then
        { m with services := m.services ++ [⟨id, true⟩], waits := m.waits ++ [id] }
      else { m with services := m.services ++ [⟨id, false⟩] }) =
        { m with services := services, waits := waits } := by
    intro m
    split
    · exact ⟨m.services, m.waits, rfl⟩
    · split
      · exact ⟨_, _, rfl⟩
      · exact ⟨_, _, rfl⟩
  obtain ⟨services, waits, heq⟩ := hsame (s.vms v)
  refine h.modify hv ?_ ?_ fun _ => .inl ?_
  · rw [heq]
    exact Vm.held_eq rfl rfl rfl rfl
  · rw [heq]
  · rw [heq]

theorem runHandler {x : Handler} (h : Simulates strict (x.held v + hand) s b) (hv : v < s.vmCount)
    (hcont : (s.vms v).cont = none) : Safe strict hand b (s.runHandler v x) := by
  cases x with
  | deliver p msg id => exact h.deliver hv hcont msg
  | interruptSend u f =>
      rw [Handler.held, zero_add] at h
      exact h.interruptSend hv u f
  | resume fiber error =>
      cases fiber with
      | some f =>
          obtain ⟨s', hs', hleads⟩ := h.fiberResume (.inr rfl)
          rw [State.runHandler, hs']
          exact hleads
      | none =>
          rw [State.runHandler]
          cases hvalid : (s.vms v).valid with
          | false =>
              rw [State.fiberResume_of_invalid _ _ hvalid]
              exact (h.rehand (by simp [Handler.held]) fun _ => by simp [Handler.held]).leads
          | true =>
              simp only [State.fiberResume, hvalid]
              refine ⟨by simp, fun hstrict => ?_⟩
              obtain ⟨place, h⟩ := h
              have := h.named hstrict
              simp [Handler.held] at this
  | noSenders =>
      rw [Handler.held, zero_add] at h
      exact h.noSenders hv
  | attachService id =>
      rw [Handler.held, zero_add] at h
      exact h.attachService hv id

theorem removeService (h : Simulates strict hand s b) (hv : v < s.vmCount) (k : Nat) :
    Leads strict hand b (s.removeService v k) :=
  h.modify hv (Vm.held_eq rfl rfl rfl rfl) rfl fun _ => .inl rfl

theorem loseService (h : Simulates strict hand s b) (hv : v < s.vmCount) (k : Nat) :
    Safe strict hand b (s.loseService v k) := by
  refine (h.removeService hv k).safe fun b₁ h₁ => ?_
  rw [State.loseService]
  split
  · exact h₁.leads
  · next f hrecv =>
      split
      · exact h₁.wakeReceiver hv hrecv (some .noSenders)
      · exact h₁.leads

theorem onPacket {c : Config} (h : Simulates strict hand s b) (hv : v < s.vmCount) (k : Nat)
    (r : Received c) : Safe strict hand b (s.onPacket v k r) := by
  rw [State.onPacket]
  split
  · exact h.loseService hv k
  · have hidle : Leads strict hand b (s.modify v fun m =>
        { m with services := m.services.map fun x => if x.id = k then { x with running := false } else x }) :=
      h.modify hv (Vm.held_eq rfl rfl rfl rfl) rfl fun _ => .inl rfl
    refine hidle.safe fun b₁ h₁ => ?_
    dsimp only
    split
    · split
      · refine h₁.modify hv ?_ rfl fun _ => .inl rfl
        simp [Vm.held, SenderState.held]
      · exact h₁.removeService hv k
      · exact ⟨by simp, by simp⟩
    · next f hrecv =>
        split
        · exact h₁.wakeReceiver hv hrecv none
        · exact h₁.loseService hv k
        · exact ⟨by simp, by simp⟩

theorem onWait {c : Config} (h : Simulates strict hand s b) (hv : v < s.vmCount) (k : Nat)
    (event : WaitEvent c) : Safe strict hand b (s.onWait v k event) := by
  have hwait : Leads strict hand b (s.modify v fun m => { m with waits := m.waits.erase k }) :=
    h.modify hv (Vm.held_eq rfl rfl rfl rfl) rfl fun _ => .inl rfl
  refine hwait.safe fun b₁ h₁ => ?_
  rw [State.onWait.eq_def]
  dsimp only
  split
  · exact h₁.leads
  · split
    · exact ⟨by simp, by simp⟩
    · split
      · exact h₁.removeService hv k
      · cases event with
        | failed => exact h₁.loseService hv k
        | broken => exact h₁.loseService hv k
        | again => exact h₁.modify hv (Vm.held_eq rfl rfl rfl rfl) rfl fun _ => .inl rfl
        | packet r => exact h₁.onPacket hv k r

end Simulates

end

/-- What a fiber does to the channels, given that there is one that runs. -/
theorem Safe.of_running {strict : Prop} {hand : Held} {s : State} {b : Protocol} {v : VmId}
    (hsettled : (s.vms v).Settled) {k : FiberId → ExecM State}
    (hk : ∀ f, (s.vms v).valid = true → s.suspension (v, f) = .running → Safe strict hand b (k f)) :
    Safe strict hand b (s.runningFiber v >>= k) := by
  cases hf : s.runningFiber v with
  | error fault =>
      rw [State.runningFiber] at hf
      split at hf
      · split at hf <;> cases hf
        exact ⟨by simp, by simp⟩
      · cases hf
        exact ⟨by simp, by simp⟩
  | ok f =>
      obtain ⟨hvalid, hcurrent⟩ := State.runningFiber_eq hf
      exact hk f hvalid (hsettled.running f hcurrent)

/-- An interrupt of a fiber that still has the interrupter of a receive that
something else has ended. -/
def staleInterrupt {c : Config} (s : State) : Action c → Prop
  | .fiberInterrupt v g =>
      ((s.vms v).fibers g).interrupter = .receive ∧ (s.vms v).recvFiber ≠ some g
  | _ => False

theorem exec_safe {c : Config} {strict : Prop} {s : State} {b : Protocol}
    (h : Simulates strict 0 s b) (hsettled : ∀ v, (s.vms v).Settled) (a : Action c)
    (hstrict : strict → ¬ staleInterrupt s a) : Safe strict 0 b (exec s a) := by
  have hdisabled : Safe strict 0 b (.error .disabled) := ⟨by simp, by simp⟩
  cases a with
  | chanSend v handle msg suspendAllowed =>
      refine Safe.of_running (hsettled v) fun f _ hrun => ?_
      split
      · exact hdisabled
      · split
        · split
          · exact h.leads
          · next halive => exact h.chanSend hrun (by simp at halive; exact halive.2) handle msg
        · exact hdisabled
  | chanReceive v suspendAllowed =>
      refine Safe.of_running (hsettled v) fun f hvalid hrun => ?_
      split
      · exact hdisabled
      · split
        · exact h.leads
        · exact h.chanReceive hrun hvalid
  | inboxClose v =>
      refine Safe.of_running (hsettled v) fun f hvalid _ => ?_
      split
      · exact hdisabled
      · exact h.inboxClose (h.bounded.lt_of_valid hvalid)
  | inboxGc v =>
      refine Safe.of_running (hsettled v) fun f hvalid _ => ?_
      split
      · next hgc => exact h.inboxGc (h.bounded.lt_of_valid hvalid) hgc.2
      · exact hdisabled
  | fiberInterrupt v g =>
      refine Safe.of_running (hsettled v) fun f hvalid _ => ?_
      split
      · exact h.leads
      · refine h.fiberInterrupt (h.bounded.lt_of_valid hvalid) fun hs hint hrecv => ?_
        exact hstrict hs ⟨hint, by simp [hrecv]⟩
  | exportAddress v handle =>
      refine Safe.of_running (hsettled v) fun f hvalid _ => ?_
      split
      · exact hdisabled
      · exact h.exportAddress _
  | exportInbox v =>
      refine Safe.of_running (hsettled v) fun f hvalid _ => ?_
      split
      · exact hdisabled
      · exact h.exportInbox (h.bounded.lt_of_valid hvalid)
  | dropHandle v handle =>
      refine Safe.of_running (hsettled v) fun f hvalid _ => ?_
      split
      · exact hdisabled
      · next d hd =>
          have hv := h.bounded.lt_of_valid hvalid
          have hremove : Leads strict 0 b (s.modify v fun m =>
              { m with addresses := m.addresses.erase (handle, d) }) :=
            h.modify hv (Vm.held_eq rfl rfl rfl rfl) rfl fun _ => .inl rfl
          exact hremove.bind fun b₁ h₁ => h₁.recount (.dropAddress _ d)
  | spawnVm v =>
      refine Safe.of_running (hsettled v) fun f hvalid _ => ?_
      exact h.spawnVm (h.bounded.lt_of_valid hvalid)
  | importInbox v =>
      refine Safe.of_running (hsettled v) fun f hvalid _ => ?_
      exact h.modify (h.bounded.lt_of_valid hvalid) (Vm.held_eq rfl rfl rfl rfl) rfl fun _ => .inl rfl
  | setInterruption v disabled =>
      refine Safe.of_running (hsettled v) fun f hvalid _ => ?_
      refine h.modify (h.bounded.lt_of_valid hvalid) (Vm.held_eq rfl rfl rfl rfl) rfl fun f' => .inl ?_
      by_cases hf : f' = f
      · subst hf
        simp
      · rw [Vm.setFiber_fibers_ne _ hf]
  | suspendElsewhere v =>
      refine Safe.of_running (hsettled v) fun f hvalid hrun => ?_
      have hv := h.bounded.lt_of_valid hvalid
      have hleave : Leads strict 0 b
          (s.modify v fun m => m.setFiber f fun g => { g with suspension := .elsewhere }) := by
        refine h.modify hv (Vm.held_eq rfl rfl rfl rfl) rfl fun f' => ?_
        by_cases hf : f' = f
        · subst hf
          right
          rw [State.suspension] at hrun
          simp [hrun, Suspension.blocked]
        · left
          rw [Vm.setFiber_fibers_ne _ hf]
      exact hleave.bind fun b₁ h₁ => h₁.yield hv
  | fiberEpilogue v joiner =>
      exact Safe.of_running (hsettled v) fun f _ hrun => h.fiberEpilogue hrun joiner
  | vmClose v =>
      exact Safe.of_running (hsettled v) fun f hvalid _ => h.vmClose (h.bounded.lt_of_valid hvalid)
  | resumeElsewhere v f =>
      rw [exec]
      split
      · next hcond =>
          exact h.resumed (h.bounded.lt_of_valid hcond.1) (by rw [hcond.2.2]; rfl)
      · exact hdisabled
  | runHandler v =>
      rw [exec]
      split
      · next x xs hcurrent hstrand =>
          have hv : v < s.vmCount := h.bounded.lt fun habs => by
            rw [habs] at hstrand
            cases hstrand
          have hpop : Leads strict (x.held v + 0) b (s.modify v fun m => { m with strand := xs }) := by
            refine h.take hv ?_ rfl fun _ => rfl
            simp only [Vm.held, hstrand, List.map_cons, List.sum_cons]
            abel
          exact hpop.safe fun b₁ h₁ => h₁.runHandler hv (by simpa using (hsettled v).cont hcurrent)
      · exact hdisabled
  | onWait v k event =>
      rw [exec]
      split
      · next hcond =>
          have hv : v < s.vmCount := h.bounded.lt fun habs => by
            rw [habs] at hcond
            cases hcond.2
          exact h.onWait hv k event
      · exact hdisabled
  | expire v =>
      rw [exec]
      split
      · next hcond =>
          have hv := h.bounded.lt_of_alive hcond.1
          have hexpire : Leads strict 0 b (s.modify v fun m => { m with alive := false }) :=
            h.modify hv (Vm.held_eq rfl rfl rfl rfl) rfl fun _ => .inl rfl
          refine hexpire.safe fun b₁ h₁ => ?_
          rw [State.destroyVm]
          split
          · exact h₁.vmClose hv
          · exact h₁.leads
      · exact hdisabled

end Emilua.Actor
