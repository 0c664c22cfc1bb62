import Emilua.Actor.Senders

/-!
A packet that spells no message costs its sender the service it came through,
and nobody else anything. Whatever a packet spells, each descriptor that came
with it ends up in the delivered message or is closed.
-/
namespace Emilua.Actor
open Emilua Ipc Relation Transition

/-- What became of a fiber that waited while the senders were counted down. -/
def ReceiverKept (s s' : State) (v : VmId) : Prop :=
  match (s.vms v).recvFiber with
  | none => (s'.vms v).recvFiber = none ∧ (s'.vms v).fibers = (s.vms v).fibers ∧ s'.hist = s.hist
  | some f =>
      if (s'.vms v).nsenders = 0 then
        ∃ n, s.suspension (v, f) = .receiving n ∧ (s'.vms v).recvFiber = none ∧
          (s'.vms v).current = some f ∧ s'.hist = s.hist.wake n (some .noSenders)
      else
        (s'.vms v).recvFiber = some f ∧ (s'.vms v).fibers = (s.vms v).fibers ∧
          (s'.vms v).current = (s.vms v).current ∧ s'.hist = s.hist

/-- Service `k` of VM `v` is gone. -/
structure ServiceDropped (s s' : State) (v : VmId) (k : Nat) : Prop where
  others : ∀ u, u ≠ v → s'.vms u = s.vms u
  incoming : (s'.vms v).incoming = (s.vms v).incoming
  services : (s'.vms v).services = (s.vms v).services.filter fun x => x.id != k
  one : (s'.vms v).services.length + 1 = (s.vms v).services.length
  waits : (s'.vms v).waits = (s.vms v).waits.erase k
  nsenders : (s'.vms v).nsenders + 1 = (s.vms v).nsenders
  receiver : ReceiverKept s s' v

/-- Every descriptor in `fds` is owned by what is delivered, or closed. -/
def Accounted {α : Type} (owned : α → List Int) (fds : List Int) : Outcome α → Prop
  | .delivered msg closed => (owned msg ++ closed).Perm fds
  | .rejected closed => closed.Perm fds
  | .outOfBounds => False

section
variable {c : Config} {s s' : State} {v : VmId} {k : Nat}

theorem receiveQueued_accounts (r : Received c) : Accounted Value.boxes r.fds (receiveQueued r) := by
  have hspec := receiveQueued_spec r
  cases hread : r.read with
  | none =>
      rw [hread] at hspec
      obtain ⟨closed, heq, hperm⟩ := hspec
      rw [heq]
      exact hperm
  | some m =>
      rw [hread] at hspec
      obtain ⟨closed, heq, hperm⟩ := hspec
      rw [heq]
      exact hperm

theorem receiveDirect_accounts (r : Received c) (h : Heap) :
    Accounted (fun x => descriptorsFrom x.2 h.userdata.length (leadsTo x.2 x.1)) r.fds
      (receiveDirect r h) := by
  have hspec := receiveDirect_spec r h
  cases hread : r.read with
  | none =>
      rw [hread] at hspec
      obtain ⟨closed, heq, hperm⟩ := hspec
      rw [heq]
      exact hperm
  | some m =>
      rw [hread] at hspec
      obtain ⟨x, h', closed, heq, -, hperm⟩ := hspec
      rw [heq]
      exact hperm

/-- What `on_wait` may have done to the VM before it removes the service. -/
structure Vm.Unhooked (m m' : Vm) (k : Nat) : Prop where
  valid : m'.valid = m.valid
  incoming : m'.incoming = m.incoming
  services : (m'.services.filter fun x => x.id != k) = m.services.filter fun x => x.id != k
  waits : m'.waits = m.waits.erase k
  nsenders : m'.nsenders = m.nsenders
  recvFiber : m'.recvFiber = m.recvFiber
  fibers : m'.fibers = m.fibers
  current : m'.current = m.current

/-- From there on only the receiver matters. -/
theorem ServiceDropped.of_removed {g : Vm → Vm} (hg : (s.vms v).Unhooked (g (s.vms v)) k)
    (hnodup : (s.vms v).serviceIds.Nodup) (hk : k ∈ (s.vms v).serviceIds) (hpos : 0 < (s.vms v).nsenders)
    (hothers : ∀ u, u ≠ v → s'.vms u = s.vms u) (hincoming : (s'.vms v).incoming = (g (s.vms v)).incoming)
    (hservices : (s'.vms v).services = (g (s.vms v)).services.filter fun x => x.id != k)
    (hwaits : (s'.vms v).waits = (g (s.vms v)).waits)
    (hnsenders : (s'.vms v).nsenders = (g (s.vms v)).nsenders - 1) (hkept : ReceiverKept s s' v) :
    ServiceDropped s s' v k := by
  refine ⟨hothers, hincoming.trans hg.incoming, hservices.trans hg.services, ?_, hwaits.trans hg.waits, ?_,
    hkept⟩
  · rw [hservices, hg.services]
    exact length_filter_id hnodup hk
  · rw [hnsenders, hg.nsenders]
    omega

theorem removeService_vms_self (s : State) (v : VmId) (g : Vm → Vm) (k : Nat) :
    ((s.modify v g).removeService v k).vms v = { g (s.vms v) with
      services := (g (s.vms v)).services.filter fun x => x.id != k
      nsenders := (g (s.vms v)).nsenders - 1 } := by
  simp [State.removeService]

theorem removeService_vms_ne (s : State) {v u : VmId} (h : u ≠ v) (g : Vm → Vm) (k : Nat) :
    ((s.modify v g).removeService v k).vms u = s.vms u := by
  rw [State.removeService, State.modify_vms_ne _ h, State.modify_vms_ne _ h]

theorem removeService_drops {g : Vm → Vm} (hg : (s.vms v).Unhooked (g (s.vms v)) k)
    (hnodup : (s.vms v).serviceIds.Nodup) (hk : k ∈ (s.vms v).serviceIds) (hpos : 0 < (s.vms v).nsenders)
    (hkept : (s.vms v).recvFiber ≠ none → (s.vms v).nsenders ≠ 1) :
    ServiceDropped s ((s.modify v g).removeService v k) v k := by
  have hself := removeService_vms_self s v g k
  refine .of_removed hg hnodup hk hpos (fun u hu => removeService_vms_ne s hu g k) (by rw [hself])
    (by rw [hself]) (by rw [hself]) (by rw [hself]) ?_
  rw [ReceiverKept, hself]
  dsimp only
  rw [hg.recvFiber, hg.fibers, hg.nsenders, hg.current]
  cases hrecv : (s.vms v).recvFiber with
  | none => exact ⟨rfl, rfl, rfl⟩
  | some f =>
      have hone := hkept (by simp [hrecv])
      dsimp only
      rw [if_neg (by omega)]
      exact ⟨rfl, rfl, rfl, rfl⟩

theorem loseService_drops {g : Vm → Vm} (hg : (s.vms v).Unhooked (g (s.vms v)) k)
    (hnodup : (s.vms v).serviceIds.Nodup) (hk : k ∈ (s.vms v).serviceIds) (hpos : 0 < (s.vms v).nsenders)
    (hvalid : (s.vms v).valid = true)
    (hwaiting : ∀ f, (s.vms v).recvFiber = some f → ∃ n, s.suspension (v, f) = .receiving n) :
    ∃ s', (s.modify v g).loseService v k = .ok s' ∧ ServiceDropped s s' v k := by
  have hself := removeService_vms_self s v g k
  have hrecv' : (((s.modify v g).removeService v k).vms v).recvFiber = (s.vms v).recvFiber := by
    rw [hself, ← hg.recvFiber]
  have hcount : (((s.modify v g).removeService v k).vms v).nsenders = (s.vms v).nsenders - 1 := by
    rw [hself, ← hg.nsenders]
  simp only [State.loseService]
  rw [hrecv', hcount]
  cases hrecv : (s.vms v).recvFiber with
  | none => exact ⟨_, rfl, removeService_drops hg hnodup hk hpos fun hne => absurd hrecv hne⟩
  | some f =>
      dsimp only
      by_cases hlast : (s.vms v).nsenders - 1 = 0
      · rw [if_pos hlast]
        obtain ⟨n, hn⟩ := hwaiting f hrecv
        let t := ((s.modify v g).removeService v k).modify v fun m => { m with recvFiber := none }
        have htself : t.vms v = { ((s.modify v g).removeService v k).vms v with recvFiber := none } := by
          simp [t]
        have htn : t.suspension (v, f) = .receiving n := by
          rw [State.suspension, htself, hself]
          dsimp only
          rw [hg.fibers]
          exact hn
        have hresume : t.fiberResume v (some f) (some .noSenders) =
            .ok ((t.modify v (Vm.resumed · f)).record (t.hist.wake n (some .noSenders))) := by
          refine State.fiberResume_of_resumed ?_ ?_
          · rw [htself, hself]
            exact hg.valid.trans hvalid
          · rw [htn]
            rfl
        refine ⟨_, hresume, ?_⟩
        have hvms : ((t.modify v (Vm.resumed · f)).record (t.hist.wake n (some .noSenders))).vms v =
            (t.vms v).resumed f := by simp
        refine .of_removed hg hnodup hk hpos (fun u hu => ?_) ?_ ?_ ?_ ?_ ?_
        · rw [State.record_vms, State.modify_vms_ne _ hu, State.modify_vms_ne _ hu]
          exact removeService_vms_ne s hu g k
        · rw [hvms, htself, hself]
          rfl
        · rw [hvms, htself, hself]
          rfl
        · rw [hvms, htself, hself]
          rfl
        · rw [hvms, htself, hself]
          rfl
        · rw [ReceiverKept, hrecv, hvms, htself]
          dsimp only
          have hzero : (Vm.resumed { ((s.modify v g).removeService v k).vms v with recvFiber := none }
              f).nsenders = 0 := hcount.trans hlast
          rw [if_pos hzero]
          exact ⟨n, hn, rfl, rfl, rfl⟩
      · rw [if_neg hlast]
        refine ⟨_, rfl, removeService_drops hg hnodup hk hpos fun _ hone => ?_⟩
        omega

/-- The decoder of either path rejects a packet that spells no message. -/
theorem rejected_of_read {r : Received c} (hread : r.read = none) (hshort : r.tooShort = false) :
    (∃ closed, queuedDelivery r = .rejected closed) ∧ ∃ closed, directDelivery r Heap.empty = .rejected closed := by
  have hqueued := receiveQueued_spec r
  have hdirect := receiveDirect_spec r Heap.empty
  rw [hread] at hqueued hdirect
  obtain ⟨closed, hq, -⟩ := hqueued
  obtain ⟨closed', hd, -⟩ := hdirect
  rw [receiveQueued, hshort, if_neg (by simp)] at hq
  rw [receiveDirect, hshort, if_neg (by simp)] at hd
  exact ⟨⟨closed, hq⟩, ⟨closed', hd⟩⟩

theorem onPacket_drops {r : Received c} (hread : r.read = none) (hnodup : (s.vms v).serviceIds.Nodup)
    (hk : k ∈ (s.vms v).serviceIds) (hpos : 0 < (s.vms v).nsenders) (hvalid : (s.vms v).valid = true)
    (hwaiting : ∀ f, (s.vms v).recvFiber = some f → ∃ n, s.suspension (v, f) = .receiving n) :
    ∃ s', (s.modify v fun m => { m with waits := m.waits.erase k }).onPacket v k r = .ok s' ∧
      ServiceDropped s s' v k := by
  rw [State.onPacket]
  cases hshort : r.tooShort with
  | true =>
      rw [if_pos rfl]
      exact loseService_drops ⟨rfl, rfl, rfl, rfl, rfl, rfl, rfl, rfl⟩ hnodup hk hpos hvalid hwaiting
  | false =>
      obtain ⟨⟨closed, hqueued⟩, ⟨closed', hdirect⟩⟩ := rejected_of_read hread hshort
      let g : Vm → Vm := fun m =>
        { m with
          waits := m.waits.erase k
          services := m.services.map fun x => if x.id = k then { x with running := false } else x }
      have heq : ((s.modify v fun m => { m with waits := m.waits.erase k }).modify v fun m =>
          { m with services := m.services.map fun x => if x.id = k then { x with running := false } else x }) =
            s.modify v g := by
        simp only [State.modify, Function.update_self, Function.update_idem, g]
      have hg : (s.vms v).Unhooked (g (s.vms v)) k :=
        ⟨rfl, rfl, AllArmed.filter_idle _ k, rfl, rfl, rfl, rfl, rfl⟩
      rw [if_neg (by simp), heq]
      dsimp only
      have hrecv : ((s.modify v g).vms v).recvFiber = (s.vms v).recvFiber := by
        rw [State.modify_vms_self]
      rw [hrecv, hqueued, hdirect]
      cases hnone : (s.vms v).recvFiber with
      | none => exact ⟨_, rfl, removeService_drops hg hnodup hk hpos fun hne => absurd hnone hne⟩
      | some f => exact loseService_drops hg hnodup hk hpos hvalid hwaiting

/-- In every reachable state with an open inbox, a packet that spells no message
takes away the service it came through and is counted down; whoever waits keeps
waiting unless this was the last sender. And the descriptors of any packet, on
either path, are owned by what is delivered or closed. -/
theorem malformed_packet_drops_service (hs : Reachable Initial (Step c) s)
    (hopen : (s.vms v).isOpen = true) (hidle : (s.vms v).current = none) (hk : k ∈ (s.vms v).waits)
    (r : Received c) :
    (r.read = none → ∃ s', Step c s (.onWait v k (.packet r)) s' ∧ ServiceDropped s s' v k) ∧
      Accounted Value.boxes r.fds (receiveQueued r) ∧
      ∀ h, Accounted (fun x => descriptorsFrom x.2 h.userdata.length (leadsTo x.2 x.1)) r.fds
        (receiveDirect r h) := by
  refine ⟨fun hread => ?_, receiveQueued_accounts r, receiveDirect_accounts r⟩
  have h : Counted False s := Counted.reachable (fun _ _ _ h => ⟨h, False.elim⟩) hs
  have hvalid := h.armed.shut v hopen
  have harmed := h.armed.armed v hvalid
  have hknown := harmed.known k hk
  obtain ⟨b, hsound⟩ := h.sound
  have hpos := h.balanced.nsenders_pos harmed.alive hvalid
    (by rw [← List.length_map Service.id]; exact List.length_pos_of_mem hknown)
  obtain ⟨s', hpacket, hdropped⟩ := onPacket_drops hread (List.nodup_append.mp harmed.distinct).1 hknown hpos
    hvalid fun f hf => (hsound.simulates.of_recvFiber hf).2
  refine ⟨s', ?_, hdropped⟩
  rw [Step, exec, if_pos ⟨hidle, hk⟩, State.onWait.eq_def]
  simp only [State.modify_vms_self, harmed.alive, hvalid, hopen, Bool.true_eq_false, or_self, if_false]
  exact (if_neg (not_not.mpr hknown)).trans hpacket

/-- The end of file of a peer, which is read like a packet without any bytes. -/
def endOfFile : Received .standard := .ofWire _ [] (Nat.zero_le _) 0 []

theorem malformed_packet_drops_parent : ∃ s s', Reachable Initial (Step .standard) s ∧
    (s.vms 0).recvFiber = some 1 ∧ Step .standard s (.onWait 0 0 (.packet endOfFile)) s' ∧
      ServiceDropped s s' 0 0 ∧ (s'.vms 0).nsenders = 0 := by
  have hrun : (runIf (fun _ _ => true) (State.initial true) receivingFromParent).map
      (fun s => ((s.vms 0).isOpen, (s.vms 0).current, (s.vms 0).waits, (s.vms 0).recvFiber,
        (s.vms 0).nsenders)) = some (true, none, [0], some 1, 1) := by decide +kernel
  obtain ⟨s, hs, hobs⟩ := Option.map_eq_some_iff.mp hrun
  simp only [Prod.mk.injEq] at hobs
  obtain ⟨hopen, hidle, hwaits, hrecv, hcount⟩ := hobs
  have hreach := (reachable_of_runIf ⟨_, ⟨true, rfl⟩, .refl⟩ hs).of_restrict
  obtain ⟨s', hstep, hdropped⟩ := (malformed_packet_drops_service hreach hopen hidle
    (by rw [hwaits]; exact List.mem_singleton_self 0) endOfFile).1 rfl
  refine ⟨s, s', hreach, hrecv, hstep, hdropped, ?_⟩
  have hnsenders := hdropped.nsenders
  omega

end

end Emilua.Actor
