import Emilua.Actor.Accounts

/-!
Between two actions at most one fiber of a VM runs, and it is the current one.
Only the actions of a VM, its handlers and its waits change which one that is.
-/
namespace Emilua.Actor
open Emilua Ipc

/-- What holds between two actions about the fiber that runs on a VM. -/
structure Vm.Settled (m : Vm) : Prop where
  running : ∀ f, m.current = some f → (m.fibers f).suspension = .running
  cont : m.current = none → m.cont = none

theorem State.runningFiber_eq {s : State} {v : VmId} {f : FiberId} (h : s.runningFiber v = .ok f) :
    (s.vms v).valid = true ∧ (s.vms v).current = some f := by
  rw [State.runningFiber] at h
  split at h
  · next hvalid =>
      split at h
      · next hcurrent =>
          cases h
          exact ⟨hvalid, hcurrent⟩
      · cases h
  · cases h

/-- The same fiber runs, and every fiber is where it was. -/
structure Vm.Steady (m m' : Vm) : Prop where
  current : m'.current = m.current
  cont : m'.cont = m.cont
  suspension : ∀ f, (m'.fibers f).suspension = (m.fibers f).suspension

section
variable {s s' s'' : State} {v : VmId}

theorem Vm.Steady.of_core {m m' : Vm} (h : m'.core = m.core) : m.Steady m' :=
  ⟨show m'.core.current = m.core.current by rw [h], show m'.core.cont = m.core.cont by rw [h],
    fun f => show (m'.core.fibers f).suspension = (m.core.fibers f).suspension by rw [h]⟩

theorem Vm.Settled.steady {m m' : Vm} (h : m.Settled) (hs : m.Steady m') : m'.Settled := by
  refine ⟨fun f hf => ?_, fun hnone => ?_⟩
  · rw [hs.suspension]
    exact h.running f (hs.current ▸ hf)
  · rw [hs.cont]
    exact h.cont (hs.current ▸ hnone)

theorem Vm.Settled.resumed (m : Vm) (f : FiberId) : (m.resumed f).Settled := by
  refine ⟨fun g hg => ?_, fun hnone => by cases hnone⟩
  cases hg
  exact m.resumed_suspension_self f

theorem Vm.Settled.handing (m : Vm) (f : FiberId) (p : Party) :
    Vm.Settled { m.resumed f with cont := some p } :=
  ⟨(Vm.Settled.resumed m f).running, fun hnone => by cases hnone⟩

/-- Every VM is settled once `v` has been dealt with. -/
def SettledBut (v : VmId) (s : State) : Prop := ∀ u, u ≠ v → (s.vms u).Settled

def AllSettled (s : State) : Prop := ∀ u, (s.vms u).Settled

theorem AllSettled.but (h : AllSettled s) (v : VmId) : SettledBut v s := fun u _ => h u

theorem SettledBut.all (h : SettledBut v s) (hv : (s.vms v).Settled) : AllSettled s := by
  intro u
  by_cases hu : u = v
  · exact hu ▸ hv
  · exact h u hu

theorem SettledBut.frame (h : SettledBut v s) (hf : s.Frame s') : SettledBut v s' :=
  fun u hu => (h u hu).steady (.of_core (hf.core u))

theorem AllSettled.frame (h : AllSettled s) (hf : s.Frame s') : AllSettled s' :=
  fun u => (h u).steady (.of_core (hf.core u))

theorem SettledBut.modify (h : SettledBut v s) (g : Vm → Vm) : SettledBut v (s.modify v g) := by
  intro u hu
  rw [State.modify_vms_ne s hu]
  exact h u hu

theorem AllSettled.modify (h : AllSettled s) {g : Vm → Vm} (hg : (s.vms v).Steady (g (s.vms v))) :
    AllSettled (s.modify v g) :=
  State.modify_vms_cases (Q := fun _ m => m.Settled) g ((h v).steady hg) fun u _ => h u

theorem SettledBut.record (h : SettledBut v s) (hist : History) : SettledBut v (s.record hist) := h

theorem SettledBut.tick (h : SettledBut v s) : SettledBut v s.tick := h

theorem SettledBut.yield (h : SettledBut v s) : AllSettled (s.yield v) := by
  have hnone : ∀ m : Vm, Vm.Settled { m with current := none, cont := none } := fun m =>
    ⟨fun f hf => (by cases hf), fun _ => rfl⟩
  have hpark : AllSettled (s.modify v fun m => { m with current := none, cont := none }) :=
    (h.modify _).all (by rw [State.modify_vms_self]; exact hnone _)
  rw [State.yield]
  split
  · exact hpark
  · exact hpark.frame (.post ..)

theorem AllSettled.fiberResume (h : AllSettled s) {fiber : Option FiberId} {error : Option WakeError}
    (hresume : s.fiberResume v fiber error = .ok s') : AllSettled s' := by
  rcases State.fiberResume_cases hresume with ⟨-, rfl⟩ | ⟨-, f, hist, -, -, rfl⟩
  · exact h
  · have hself : AllSettled (s.modify v (Vm.resumed · f)) := by
      refine ((h.but v).modify _).all ?_
      rw [State.modify_vms_self]
      exact .resumed _ f
    exact hself

namespace AllSettled

theorem chanSend (h : AllSettled s) (f : FiberId) (handle : Nat) (d : VmId) (msg : Value) :
    AllSettled (s.chanSend v f handle d msg) := by
  have hcopy := h.frame (.of_recount (.copyAddresses s msg.addresses))
  exact (((((hcopy.but v).record _).tick).modify _).frame (.post ..)).yield

theorem chanReceive (h : AllSettled s) (f : FiberId) : AllSettled (s.chanReceive v f) := by
  rw [State.chanReceive]
  split
  · exact h
  · split
    · exact h
    · split
      · next e es _ =>
          have hdequeue : s.Frame (s.modify v fun m => { m with incoming := es }) := .modify rfl
          rw [State.receiveQueuedEntry]
          dsimp only
          split
          · exact h.frame (hdequeue.trans (.adoptAddresses ..))
          · exact h.frame (hdequeue.trans (((State.Frame.post ..).record _).trans (.adoptAddresses ..)))
      · split
        · exact h
        · rw [State.waitForMessage]
          exact ((h.but v).modify _).tick.yield

theorem resetReceiver (h : AllSettled s) :
    AllSettled (s.modify v fun m => { m with recvFiber := none }) :=
  h.modify ⟨rfl, rfl, fun _ => rfl⟩

theorem claimReceiver (h : AllSettled s) (x : Handler) :
    AllSettled ((s.modify v fun m => { m with recvFiber := none }).post v x) :=
  h.resetReceiver.frame (.post ..)

theorem closeInbox (h : AllSettled s) {es : List SenderState} {g : Vm → Vm}
    (hg : (s.vms v).Steady (g (s.vms v))) (hclear : (s.modify v g).clearIncoming v es = .ok s') :
    AllSettled s' :=
  (h.modify hg).frame (.clearIncoming hclear)

theorem inboxClose (h : AllSettled s) (hclose : s.inboxClose v = .ok s') : AllSettled s' := by
  rw [State.inboxClose] at hclose
  dsimp only at hclose
  split at hclose
  · cases hclose
    exact h
  · split at hclose
    · exact h.closeInbox (v := v) ⟨rfl, rfl, fun _ => rfl⟩ hclose
    · next g _ =>
        have hclaim := h.claimReceiver (v := v) (.resume (some g) (some .channelClosed))
        exact hclaim.closeInbox (v := v) ⟨rfl, rfl, fun _ => rfl⟩ hclose

theorem inboxGc (h : AllSettled s) (hgc : s.inboxGc v = .ok s') : AllSettled s' := by
  rw [State.inboxGc] at hgc
  split at hgc
  · cases hgc
    exact h
  · exact h.closeInbox (v := v) ⟨rfl, rfl, fun _ => rfl⟩ hgc

theorem clearInterrupter (h : AllSettled s) (g : FiberId) :
    AllSettled (s.modify v fun m => m.setFiber g fun g => { g with interrupter := .none }) := by
  refine h.modify ⟨rfl, rfl, fun f => ?_⟩
  by_cases hf : f = g
  · subst hf
    simp
  · rw [Vm.setFiber_fibers_ne _ hf]

theorem fiberInterrupt (h : AllSettled s) {g : FiberId} (hint : s.fiberInterrupt v g = .ok s') :
    AllSettled s' := by
  rw [State.fiberInterrupt] at hint
  dsimp only at hint
  split at hint
  · cases hint
    exact h
  · split at hint
    · cases hint
    · split at hint
      · cases hint
        exact (h.frame (.post ..)).clearInterrupter g
      · cases hint
        exact h.clearInterrupter g
  · cases hint
    exact (h.claimReceiver _).clearInterrupter g

theorem vmClose (h : AllSettled s) (hclose : s.vmClose v = .ok s') : AllSettled s' := by
  have hdrop : AllSettled ((s.modify v fun m => { m with addresses := [] }).dropAddresses
      ((s.vms v).addresses.map Prod.snd)) :=
    h.frame (State.Frame.trans (.modify rfl) (.of_recount (.dropAddresses _ _)))
  rw [State.vmClose] at hclose
  cases hclear : (State.modify ((s.modify v fun m => { m with addresses := [] }).dropAddresses
      ((s.vms v).addresses.map Prod.snd)) v Vm.invalidated).clearIncoming v (s.vms v).incoming with
  | error fault =>
      rw [hclear] at hclose
      cases hclose
  | ok s₁ =>
      rw [hclear] at hclose
      cases hclose
      exact ((((hdrop.but v).modify _).frame (.clearIncoming hclear)).modify _).yield

theorem resumeJoiner (h : SettledBut v s) {joiner : Option FiberId}
    (hjoin : s.resumeJoiner v joiner = .ok s') : AllSettled s' := by
  cases joiner with
  | none =>
      cases hjoin
      exact h.yield
  | some g =>
      rw [State.resumeJoiner] at hjoin
      split at hjoin
      · cases hjoin
        refine (h.modify _).all ?_
        rw [State.modify_vms_self]
        exact .resumed _ g
      · cases hjoin

theorem fiberEpilogue (h : AllSettled s) {f : FiberId} {joiner : Option FiberId}
    (hend : s.fiberEpilogue v f joiner = .ok s') : AllSettled s' := by
  rw [State.fiberEpilogue] at hend
  have hfinish := (h.but v).modify fun m => m.setFiber f fun g => { g with suspension := .finished }
  cases hclose : (s.modify v fun m =>
      m.setFiber f fun g => { g with suspension := .finished }).closeUnimported v f with
  | error fault =>
      rw [hclose] at hend
      cases hend
  | ok s₁ =>
      rw [hclose] at hend
      refine resumeJoiner ?_ hend
      rw [State.closeUnimported] at hclose
      split at hclose
      · exact (hfinish.modify _).frame (.clearIncoming hclose)
      · cases hclose
        exact hfinish

theorem destroyVm (h : AllSettled s) (hdestroy : s.destroyVm v = .ok s') : AllSettled s' := by
  rw [State.destroyVm] at hdestroy
  split at hdestroy
  · exact h.vmClose hdestroy
  · cases hdestroy
    exact h

/-- A fiber is resumed and its VM has something left to do when it yields. -/
theorem handOver (h : AllSettled s) {f : FiberId} {p : Party} {msg : Value} {id : Nat}
    (hvalid : (s.vms v).valid = true) (hhand : s.handOver v f p msg id = .ok s') : AllSettled s' := by
  rw [State.handOver] at hhand
  cases hresume : (s.modify v fun m => { m with recvFiber := none }).fiberResume v (some f) none with
  | error fault =>
      rw [hresume] at hhand
      cases hhand
  | ok s₁ =>
      rw [hresume] at hhand
      cases hhand
      rcases State.fiberResume_cases hresume with ⟨hno, -⟩ | ⟨-, g, hist, -, -, rfl⟩
      · rw [State.modify_vms_self] at hno
        exact absurd (hvalid.symm.trans hno) (by simp)
      · refine AllSettled.frame ?_ (.adoptAddresses ..)
        have hother := ((((h.resetReceiver (v := v)).but v).modify (Vm.resumed · g)).record hist).modify
          fun m => { m with cont := some p }
        refine SettledBut.all (v := v) (hother.record _) ?_
        simp only [State.record_vms, State.modify_vms_self]
        exact .handing _ g p

theorem deliver (h : AllSettled s) {p : Party} {msg : Value} {id : Nat}
    (hvalid : (s.vms v).recvFiber ≠ none → (s.vms v).valid = true)
    (hdeliver : s.deliver v p msg id = .ok s') : AllSettled s' := by
  rw [State.deliver] at hdeliver
  split at hdeliver
  · exact h.frame (.destroySender hdeliver)
  · split at hdeliver
    · cases hdeliver
      exact h.frame (.modify rfl)
    · next f hrecv => exact h.handOver (hvalid (by simp [hrecv])) hdeliver

theorem interruptSend (h : AllSettled s) (u : VmId) (f : FiberId) :
    AllSettled (s.interruptSend v u f) := by
  rw [State.interruptSend]
  dsimp only
  split
  · exact h
  · refine h.frame (State.Frame.trans (.modify rfl) (.trans (.of_recount (.dropAddresses _ _)) (.post ..)))

theorem wakeReceiver (h : AllSettled s) {f : FiberId} {error : Option WakeError}
    (hwake : (s.modify v fun m => { m with recvFiber := none }).fiberResume v (some f) error = .ok s') :
    AllSettled s' :=
  h.resetReceiver.fiberResume hwake

theorem noSenders (h : AllSettled s) (hno : s.noSenders v = .ok s') : AllSettled s' := by
  rw [State.noSenders] at hno
  split at hno
  · cases hno
    exact h
  · split at hno
    · cases hno
      exact h
    · exact h.wakeReceiver hno

theorem attachService (h : AllSettled s) (id : Nat) : AllSettled (s.attachService v id) := by
  refine h.modify ?_
  split
  · exact ⟨rfl, rfl, fun _ => rfl⟩
  · split
    · exact ⟨rfl, rfl, fun _ => rfl⟩
    · exact ⟨rfl, rfl, fun _ => rfl⟩

theorem runHandler (h : AllSettled s) {x : Handler}
    (hvalid : (s.vms v).recvFiber ≠ none → (s.vms v).valid = true)
    (hrun : s.runHandler v x = .ok s') : AllSettled s' := by
  cases x with
  | deliver p msg id => exact h.deliver hvalid hrun
  | interruptSend u f =>
      cases hrun
      exact h.interruptSend u f
  | resume fiber error => exact h.fiberResume hrun
  | noSenders => exact h.noSenders hrun
  | attachService id =>
      cases hrun
      exact h.attachService id

theorem removeService (h : AllSettled s) (k : Nat) : AllSettled (s.removeService v k) :=
  h.modify ⟨rfl, rfl, fun _ => rfl⟩

theorem loseService (h : AllSettled s) {k : Nat} (hlose : s.loseService v k = .ok s') :
    AllSettled s' := by
  rw [State.loseService] at hlose
  split at hlose
  · cases hlose
    exact h.removeService k
  · split at hlose
    · exact (h.removeService k).wakeReceiver hlose
    · cases hlose
      exact h.removeService k

theorem onPacket {c : Config} (h : AllSettled s) {k : Nat} {r : Received c}
    (hpacket : s.onPacket v k r = .ok s') : AllSettled s' := by
  rw [State.onPacket] at hpacket
  split at hpacket
  · exact h.loseService hpacket
  · have hidle : AllSettled (s.modify v fun m =>
        { m with services := m.services.map fun x => if x.id = k then { x with running := false } else x }) :=
      h.modify ⟨rfl, rfl, fun _ => rfl⟩
    dsimp only at hpacket
    split at hpacket
    · split at hpacket
      · cases hpacket
        exact hidle.frame (.modify rfl)
      · cases hpacket
        exact hidle.removeService k
      · cases hpacket
    · split at hpacket
      · exact hidle.wakeReceiver hpacket
      · exact hidle.loseService hpacket
      · cases hpacket

theorem onWait {c : Config} (h : AllSettled s) {k : Nat} {event : WaitEvent c}
    (hwait : s.onWait v k event = .ok s') : AllSettled s' := by
  have hdone : AllSettled (s.modify v fun m => { m with waits := m.waits.erase k }) :=
    h.modify ⟨rfl, rfl, fun _ => rfl⟩
  rw [State.onWait.eq_def] at hwait
  dsimp only at hwait
  split at hwait
  · cases hwait
    exact hdone
  · split at hwait
    · cases hwait
    · split at hwait
      · cases hwait
        exact hdone.removeService k
      · cases event with
        | failed => exact hdone.loseService hwait
        | broken => exact hdone.loseService hwait
        | again =>
            cases hwait
            exact hdone.modify ⟨rfl, rfl, fun _ => rfl⟩
        | packet r => exact hdone.onPacket hwait

end AllSettled

theorem exec_running {v : VmId} {k : FiberId → ExecM State} (h : s.runningFiber v >>= k = .ok s') :
    ∃ f, (s.vms v).valid = true ∧ (s.vms v).current = some f ∧ k f = .ok s' := by
  cases hf : s.runningFiber v with
  | error fault =>
      rw [hf] at h
      cases h
  | ok f =>
      rw [hf] at h
      obtain ⟨hvalid, hcurrent⟩ := State.runningFiber_eq hf
      exact ⟨f, hvalid, hcurrent, h⟩

theorem exec_settled {c : Config} {a : Action c} (h : AllSettled s)
    (hvalid : ∀ v, (s.vms v).recvFiber ≠ none → (s.vms v).valid = true)
    (hexec : exec s a = .ok s') : AllSettled s' := by
  cases a with
  | chanSend v handle msg suspendAllowed =>
      obtain ⟨f, -, -, hk⟩ := exec_running hexec
      split at hk
      · cases hk
      · split at hk
        · split at hk
          · cases hk
            exact h
          · cases hk
            exact h.chanSend f handle _ msg
        · cases hk
  | chanReceive v suspendAllowed =>
      obtain ⟨f, -, -, hk⟩ := exec_running hexec
      split at hk
      · cases hk
      · split at hk
        · cases hk
          exact h
        · cases hk
          exact h.chanReceive f
  | inboxClose v =>
      obtain ⟨f, -, -, hk⟩ := exec_running hexec
      split at hk
      · cases hk
      · exact h.inboxClose hk
  | inboxGc v =>
      obtain ⟨f, -, -, hk⟩ := exec_running hexec
      split at hk
      · exact h.inboxGc hk
      · cases hk
  | fiberInterrupt v g =>
      obtain ⟨f, -, -, hk⟩ := exec_running hexec
      split at hk
      · cases hk
        exact h
      · exact h.fiberInterrupt hk
  | exportAddress v handle =>
      obtain ⟨f, -, -, hk⟩ := exec_running hexec
      split at hk
      · cases hk
      · cases hk
        rw [State.exportAddress]
        split
        · exact h.frame (State.Frame.tick (.trans (.modify rfl) (.post ..)))
        · exact h
  | exportInbox v =>
      obtain ⟨f, -, -, hk⟩ := exec_running hexec
      split at hk
      · cases hk
      · cases hk
        have hattach : AllSettled (s.modify v fun m =>
            { m with nsenders := m.nsenders + 1, services := m.services ++ [⟨s.fresh, false⟩] }) :=
          h.modify ⟨rfl, rfl, fun _ => rfl⟩
        exact hattach
  | dropHandle v handle =>
      obtain ⟨f, -, -, hk⟩ := exec_running hexec
      split at hk
      · cases hk
      · cases hk
        exact h.frame (State.Frame.trans (.modify rfl) (.of_recount (.dropAddress _ _)))
  | spawnVm v =>
      obtain ⟨f, -, -, hk⟩ := exec_running hexec
      cases hk
      have hadd : AllSettled (s.addVm (Vm.fresh 1)) := by
        intro u
        by_cases hu : u = s.vmCount
        · subst hu
          rw [State.addVm_vms_self]
          exact ⟨fun f hf => (by cases hf), fun _ => rfl⟩
        · rw [State.addVm_vms_ne s hu]
          exact h u
      exact hadd.frame (State.Frame.adoptAddresses _ v [s.vmCount])
  | importInbox v =>
      obtain ⟨f, -, -, hk⟩ := exec_running hexec
      cases hk
      exact h.modify ⟨rfl, rfl, fun _ => rfl⟩
  | setInterruption v disabled =>
      obtain ⟨f, -, -, hk⟩ := exec_running hexec
      cases hk
      refine h.modify ⟨rfl, rfl, fun f' => ?_⟩
      by_cases hf : f' = f
      · subst hf
        simp
      · rw [Vm.setFiber_fibers_ne _ hf]
  | suspendElsewhere v =>
      obtain ⟨f, -, -, hk⟩ := exec_running hexec
      cases hk
      exact ((h.but v).modify _).yield
  | fiberEpilogue v joiner =>
      obtain ⟨f, -, -, hk⟩ := exec_running hexec
      exact h.fiberEpilogue hk
  | vmClose v =>
      obtain ⟨f, -, -, hk⟩ := exec_running hexec
      exact h.vmClose hk
  | resumeElsewhere v f =>
      rw [exec] at hexec
      split at hexec
      · cases hexec
        refine ((h.but v).modify _).all ?_
        rw [State.modify_vms_self]
        exact .resumed _ f
      · cases hexec
  | runHandler v =>
      rw [exec] at hexec
      split at hexec
      · have hpop : ∀ hs, AllSettled (s.modify v fun m => { m with strand := hs }) := fun _ =>
          h.frame (.modify rfl)
        exact (hpop _).runHandler (by simpa using hvalid v) hexec
      · cases hexec
  | onWait v k event =>
      rw [exec] at hexec
      split at hexec
      · exact h.onWait hexec
      · cases hexec
  | expire v =>
      rw [exec] at hexec
      split at hexec
      · have halive : AllSettled (s.modify v fun m => { m with alive := false }) :=
          h.modify ⟨rfl, rfl, fun _ => rfl⟩
        exact halive.destroyVm hexec
      · cases hexec

end

end Emilua.Actor
