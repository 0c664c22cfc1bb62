import Emilua.Actor.Closing
import Emilua.Ipc.Delivery

/-!
The IPC services of a VM. A service is running exactly while one wait for its
socket is armed. The waits are armed when a fiber begins to receive, so a
service that is attached while one receives has to be armed then.
-/
namespace Emilua.Actor
open Emilua Ipc Relation Transition

def Handler.attaching? : Handler → Option Nat
  | .attachService id => some id
  | _ => none

/-- The services that will be attached when the strand gets there. -/
def Vm.attaching (m : Vm) : List Nat := m.strand.filterMap Handler.attaching?

def Vm.serviceIds (m : Vm) : List Nat := m.services.map Service.id

structure Vm.Armed (strict : Prop) (fresh : Nat) (m : Vm) : Prop where
  alive : m.alive = true
  one : ∀ k ∈ m.services, m.waits.count k.id = if k.running then 1 else 0
  known : ∀ k ∈ m.waits, k ∈ m.serviceIds
  distinct : (m.serviceIds ++ m.attaching).Nodup
  old : ∀ k ∈ m.serviceIds ++ m.attaching, k < fresh
  awake : strict → m.recvFiber ≠ none → ∀ k ∈ m.services, k.running = true

/-- A closed VM has closed its inbox. -/
def Vm.Shut (m : Vm) : Prop := m.isOpen = true → m.valid = true

structure AllArmed (strict : Prop) (s : State) : Prop where
  shut : ∀ v, (s.vms v).Shut
  armed : ∀ v, (s.vms v).valid = true → (s.vms v).Armed strict s.fresh

/-- The services are left alone, and nobody begins to receive. -/
structure Vm.Quiet (m m' : Vm) : Prop where
  shut : m.Shut → m'.Shut
  kept : m'.valid = true → m.valid = true ∧ m'.alive = m.alive ∧ m'.services = m.services ∧
    m'.waits = m.waits ∧ m'.attaching = m.attaching ∧ (m'.recvFiber = m.recvFiber ∨ m'.recvFiber = none)

structure State.Quiet (s s' : State) : Prop where
  vm : ∀ v, (s.vms v).Quiet (s'.vms v)
  fresh : s.fresh ≤ s'.fresh

section
variable {strict : Prop} {s s' s'' : State} {v : VmId}

theorem Vm.Armed.quiet {m m' : Vm} {fresh fresh' : Nat} (h : m.Armed strict fresh)
    (hvalid : m'.valid = true) (hq : m.Quiet m') (hle : fresh ≤ fresh') : m'.Armed strict fresh' := by
  obtain ⟨-, halive, hservices, hwaits, hattaching, hrecv⟩ := hq.kept hvalid
  constructor
  · rw [halive]
    exact h.alive
  · rw [hservices, hwaits]
    exact h.one
  · rw [Vm.serviceIds, hservices, hwaits]
    exact h.known
  · rw [Vm.serviceIds, hservices, hattaching]
    exact h.distinct
  · rw [Vm.serviceIds, hservices, hattaching]
    exact fun k hk => (h.old k hk).trans_le hle
  · rw [hservices]
    intro hs hne
    refine h.awake hs fun hnone => hne ?_
    rcases hrecv with heq | heq
    · rw [heq, hnone]
    · exact heq

theorem AllArmed.quiet (h : AllArmed strict s) (hq : s.Quiet s') : AllArmed strict s' :=
  ⟨fun v => (hq.vm v).shut (h.shut v),
    fun v hvalid => (h.armed v ((hq.vm v).kept hvalid).1).quiet hvalid (hq.vm v) hq.fresh⟩

theorem Vm.Quiet.refl (m : Vm) : m.Quiet m := ⟨id, fun h => ⟨h, rfl, rfl, rfl, rfl, .inl rfl⟩⟩

theorem Vm.Quiet.of_invalid {m m' : Vm} (hshut : m.Shut → m'.Shut) (h : m'.valid = false) : m.Quiet m' :=
  ⟨hshut, fun hvalid => absurd (hvalid.symm.trans h) (by simp)⟩

namespace State.Quiet

theorem refl (s : State) : s.Quiet s := ⟨fun _ => .refl _, le_rfl⟩

theorem trans (h : s.Quiet s') (h' : s'.Quiet s'') : s.Quiet s'' := by
  refine ⟨fun v => ⟨fun hshut => (h'.vm v).shut ((h.vm v).shut hshut), fun hvalid => ?_⟩,
    h.fresh.trans h'.fresh⟩
  obtain ⟨hvalid', halive', hservices', hwaits', hattaching', hrecv'⟩ := (h'.vm v).kept hvalid
  obtain ⟨hvalid, halive, hservices, hwaits, hattaching, hrecv⟩ := (h.vm v).kept hvalid'
  refine ⟨hvalid, halive'.trans halive, hservices'.trans hservices, hwaits'.trans hwaits, hattaching'.trans hattaching, ?_⟩
  rcases hrecv' with heq' | heq'
  · rcases hrecv with heq | heq
    · exact .inl (heq'.trans heq)
    · exact .inr (heq'.trans heq)
  · exact .inr heq'

theorem modify {g : Vm → Vm} (hg : (s.vms v).Quiet (g (s.vms v))) : s.Quiet (s.modify v g) :=
  ⟨modify_vms_cases (Q := fun u m => (s.vms u).Quiet m) g hg fun _ _ => .refl _, le_rfl⟩

theorem tick (h : s.Quiet s') : s.Quiet s'.tick := ⟨h.vm, h.fresh.trans (Nat.le_succ _)⟩

theorem record (h : s.Quiet s') (hist : History) : s.Quiet (s'.record hist) := ⟨h.vm, h.fresh⟩

theorem post (s : State) (v : VmId) {x : Handler} (hx : x.attaching? = none) : s.Quiet (s.post v x) := by
  refine modify ⟨id, fun hvalid => ⟨hvalid, rfl, rfl, rfl, ?_, .inl rfl⟩⟩
  simp [Vm.attaching, hx]

theorem of_recount (h : s.Recount s') : s.Quiet s' := by
  refine ⟨fun v => ?_, h.fresh⟩
  obtain ⟨k, n, a, heq⟩ := h.vm v
  rw [heq]
  refine ⟨id, fun hvalid => ⟨hvalid, rfl, rfl, rfl, ?_, .inl rfl⟩⟩
  simp [Vm.attaching, Handler.attaching?]

theorem adoptAddresses (s : State) (v : VmId) (ds : List VmId) : s.Quiet (s.adoptAddresses v ds) := by
  induction ds generalizing s with
  | nil => exact refl s
  | cons d ds ih =>
      have hd : s.Quiet (State.adoptAddress v s d) :=
        tick (modify ⟨id, fun hvalid => ⟨hvalid, rfl, rfl, rfl, rfl, .inl rfl⟩⟩)
      exact hd.trans (ih _)

theorem destroySender {e : SenderState} (h : s.destroySender e = .ok s') : s.Quiet s' := by
  rw [State.destroySender] at h
  split at h
  · split at h
    · cases h
    · cases h
      exact (post _ _ rfl).trans (of_recount (.dropAddresses _ _))
  · cases h
    exact of_recount (.dropAddresses _ _)

theorem clearIncoming {es : List SenderState} (h : s.clearIncoming v es = .ok s') : s.Quiet s' := by
  induction es generalizing s with
  | nil =>
      rw [State.clearIncoming, Except.ok.injEq] at h
      exact h ▸ refl _
  | cons e es ih =>
      rw [State.clearIncoming] at h
      cases hd : (s.modify v fun m => { m with incoming := es }).destroySender
          { e with wakeOnDestruct := true } with
      | error fault =>
          rw [hd] at h
          cases h
      | ok s₁ =>
          rw [hd] at h
          have hqueue : s.Quiet (s.modify v fun m => { m with incoming := es }) :=
            modify ⟨id, fun hvalid => ⟨hvalid, rfl, rfl, rfl, rfl, .inl rfl⟩⟩
          exact hqueue.trans ((destroySender hd).trans (ih h))

theorem yield (s : State) (v : VmId) : s.Quiet (s.yield v) := by
  have hpark : s.Quiet (s.modify v fun m => { m with current := none, cont := none }) :=
    modify ⟨id, fun hvalid => ⟨hvalid, rfl, rfl, rfl, rfl, .inl rfl⟩⟩
  rw [State.yield]
  split
  · exact hpark
  · exact hpark.trans (post _ _ rfl)

theorem resetReceiver (s : State) (v : VmId) : s.Quiet (s.modify v fun m => { m with recvFiber := none }) :=
  modify ⟨id, fun hvalid => ⟨hvalid, rfl, rfl, rfl, rfl, .inr rfl⟩⟩

theorem fiberResume {fiber : Option FiberId} {error : Option WakeError}
    (h : s.fiberResume v fiber error = .ok s') : s.Quiet s' := by
  rcases State.fiberResume_cases h with ⟨-, rfl⟩ | ⟨-, f, hist, -, -, rfl⟩
  · exact refl _
  · exact record (modify ⟨id, fun hvalid => ⟨hvalid, rfl, rfl, rfl, rfl, .inl rfl⟩⟩) _

theorem wakeReceiver {f : FiberId} {error : Option WakeError}
    (h : (s.modify v fun m => { m with recvFiber := none }).fiberResume v (some f) error = .ok s') :
    s.Quiet s' :=
  (resetReceiver s v).trans (fiberResume h)

theorem chanSend (s : State) (v : VmId) (f : FiberId) (handle : Nat) (d : VmId) (msg : Value) :
    s.Quiet (s.chanSend v f handle d msg) := by
  have hcopy : s.Quiet (s.copyAddresses msg.addresses) := of_recount (.copyAddresses ..)
  have hswitch : ∀ t : State, t.Quiet (t.modify v (Vm.switch · f (.send handle d) (.sending s.fresh d))) :=
    fun t => modify ⟨id, fun hvalid => ⟨hvalid, rfl, rfl, rfl, rfl, .inl rfl⟩⟩
  exact ((hcopy.record _).tick.trans (hswitch _)).trans ((post _ _ rfl).trans (yield _ _))

theorem receiveQueuedEntry (s : State) (v : VmId) (e : SenderState) (es : List SenderState) :
    s.Quiet (s.receiveQueuedEntry v e es) := by
  have hdequeue : s.Quiet (s.modify v fun m => { m with incoming := es }) :=
    modify ⟨id, fun hvalid => ⟨hvalid, rfl, rfl, rfl, rfl, .inl rfl⟩⟩
  rw [State.receiveQueuedEntry]
  dsimp only
  split
  · exact hdequeue.trans (adoptAddresses ..)
  · exact hdequeue.trans (((post _ _ rfl).record _).trans (adoptAddresses ..))

theorem closeInbox {es : List SenderState} {g : Vm → Vm} (hopen : (g (s.vms v)).isOpen = false)
    (hg : (g (s.vms v)).valid = true → (s.vms v).valid = true ∧
      (g (s.vms v)).alive = (s.vms v).alive ∧ (g (s.vms v)).services = (s.vms v).services ∧
      (g (s.vms v)).waits = (s.vms v).waits ∧ (g (s.vms v)).attaching = (s.vms v).attaching ∧
      ((g (s.vms v)).recvFiber = (s.vms v).recvFiber ∨ (g (s.vms v)).recvFiber = none))
    (hclear : (s.modify v g).clearIncoming v es = .ok s') : s.Quiet s' := by
  have hshut : (g (s.vms v)).Shut := fun htrue => absurd (htrue.symm.trans hopen) (by simp)
  exact (modify ⟨fun _ => hshut, hg⟩).trans (clearIncoming hclear)

theorem inboxClose (h : s.inboxClose v = .ok s') : s.Quiet s' := by
  rw [State.inboxClose] at h
  dsimp only at h
  split at h
  · cases h
    exact refl _
  · split at h
    · exact closeInbox rfl (fun hvalid => ⟨hvalid, rfl, rfl, rfl, rfl, .inl rfl⟩) h
    · exact ((resetReceiver s v).trans (post _ _ rfl)).trans
        (closeInbox rfl (fun hvalid => ⟨hvalid, rfl, rfl, rfl, rfl, .inl rfl⟩) h)

theorem inboxGc (h : s.inboxGc v = .ok s') : s.Quiet s' := by
  rw [State.inboxGc] at h
  split at h
  · cases h
    exact refl _
  · exact closeInbox rfl (fun hvalid => ⟨hvalid, rfl, rfl, rfl, rfl, .inr rfl⟩) h

theorem fiberInterrupt {g : FiberId} (h : s.fiberInterrupt v g = .ok s') : s.Quiet s' := by
  have hclear : ∀ s : State, s.Quiet
      (s.modify v fun m => m.setFiber g fun g => { g with interrupter := .none }) := fun s =>
    modify ⟨id, fun hvalid => ⟨hvalid, rfl, rfl, rfl, rfl, .inl rfl⟩⟩
  rw [State.fiberInterrupt] at h
  dsimp only at h
  split at h
  · cases h
    exact refl _
  · split at h
    · cases h
    · split at h
      · cases h
        exact (post _ _ rfl).trans (hclear _)
      · cases h
        exact hclear _
  · cases h
    exact ((resetReceiver s v).trans (post _ _ rfl)).trans (hclear _)

theorem invalidated_valid {es : List SenderState}
    (hclear : (s.modify v Vm.invalidated).clearIncoming v es = .ok s') : (s'.vms v).valid = false := by
  have hcore := (State.Frame.clearIncoming hclear).core v
  have hvalid : (s'.vms v).core.valid = ((s.modify v Vm.invalidated).vms v).core.valid := by
    rw [hcore]
  rw [State.modify_vms_self] at hvalid
  exact hvalid

theorem yield_valid (s : State) (v u : VmId) : ((s.yield v).vms u).valid = (s.vms u).valid := by
  have hpark := State.modify_vms_cases (s := s) (v := v) (Q := fun u m => m.valid = (s.vms u).valid)
    (fun m => { m with current := none, cont := none }) rfl (fun _ _ => rfl) u
  rw [State.yield]
  split
  · exact hpark
  · rw [State.post_vms]
    exact hpark

theorem vmClose_valid (h : s.vmClose v = .ok s') : (s'.vms v).valid = false := by
  rw [State.vmClose] at h
  generalize State.dropAddresses (s.modify v fun m => { m with addresses := [] })
    ((s.vms v).addresses.map Prod.snd) = s₁ at h
  cases hclear : (s₁.modify v Vm.invalidated).clearIncoming v (s.vms v).incoming with
  | error fault =>
      rw [hclear] at h
      cases h
  | ok s₂ =>
      rw [hclear] at h
      cases h
      rw [yield_valid, State.modify_vms_self]
      exact invalidated_valid hclear

theorem vmClose (h : s.vmClose v = .ok s') : s.Quiet s' := by
  have hrelease : s.Quiet ((s.modify v fun m => { m with addresses := [] }).dropAddresses
      ((s.vms v).addresses.map Prod.snd)) :=
    (modify ⟨id, fun hvalid => ⟨hvalid, rfl, rfl, rfl, rfl, .inl rfl⟩⟩).trans (of_recount (.dropAddresses _ _))
  rw [State.vmClose] at h
  generalize State.dropAddresses (s.modify v fun m => { m with addresses := [] })
    ((s.vms v).addresses.map Prod.snd) = s₁ at h hrelease
  cases hclear : (s₁.modify v Vm.invalidated).clearIncoming v (s.vms v).incoming with
  | error fault =>
      rw [hclear] at h
      cases h
  | ok s₂ =>
      rw [hclear] at h
      cases h
      -- the VM is closed by now, so nothing is asked of it any more
      have hclosed : (s₂.vms v).valid = false := invalidated_valid hclear
      have hinvalidate : s₁.Quiet (s₁.modify v Vm.invalidated) := modify (.of_invalid (fun _ htrue => by cases htrue) rfl)
      have hservices : s₂.Quiet (s₂.modify v fun m => { m with services := [] }) :=
        modify (.of_invalid id hclosed)
      exact ((hrelease.trans hinvalidate).trans (clearIncoming hclear)).trans
        (hservices.trans (yield _ _))

theorem fiberEpilogue {f : FiberId} {joiner : Option FiberId}
    (h : s.fiberEpilogue v f joiner = .ok s') : s.Quiet s' := by
  have hfinish : s.Quiet (s.modify v fun m => m.setFiber f fun g => { g with suspension := .finished }) :=
    modify ⟨id, fun hvalid => ⟨hvalid, rfl, rfl, rfl, rfl, .inl rfl⟩⟩
  rw [State.fiberEpilogue] at h
  cases hclose : (s.modify v fun m =>
      m.setFiber f fun g => { g with suspension := .finished }).closeUnimported v f with
  | error fault =>
      rw [hclose] at h
      cases h
  | ok s₁ =>
      rw [hclose] at h
      have hs₁ : s.Quiet s₁ := by
        rw [State.closeUnimported] at hclose
        split at hclose
        · exact hfinish.trans (closeInbox rfl (fun hvalid => ⟨hvalid, rfl, rfl, rfl, rfl, .inl rfl⟩) hclose)
        · cases hclose
          exact hfinish
      refine hs₁.trans ?_
      cases joiner with
      | none =>
          cases h
          exact yield _ _
      | some g =>
          change s₁.resumeJoiner v (some g) = .ok s' at h
          rw [State.resumeJoiner] at h
          split at h
          · cases h
            exact modify ⟨id, fun hvalid => ⟨hvalid, rfl, rfl, rfl, rfl, .inl rfl⟩⟩
          · cases h

theorem deliver {p : Party} {msg : Value} {n : Nat} (h : s.deliver v p msg n = .ok s') : s.Quiet s' := by
  rw [State.deliver] at h
  split at h
  · exact destroySender h
  · split at h
    · cases h
      exact modify ⟨id, fun hvalid => ⟨hvalid, rfl, rfl, rfl, rfl, .inl rfl⟩⟩
    · next f _ =>
        rw [State.handOver] at h
        cases hresume : (s.modify v fun m => { m with recvFiber := none }).fiberResume v (some f) none with
        | error fault =>
            rw [hresume] at h
            cases h
        | ok s₁ =>
            rw [hresume] at h
            cases h
            have hcont : s₁.Quiet (s₁.modify v fun m => { m with cont := some p }) :=
              modify ⟨id, fun hvalid => ⟨hvalid, rfl, rfl, rfl, rfl, .inl rfl⟩⟩
            exact (wakeReceiver hresume).trans ((hcont.record _).trans (adoptAddresses ..))

theorem interruptSend (s : State) (v u : VmId) (f : FiberId) : s.Quiet (s.interruptSend v u f) := by
  rw [State.interruptSend]
  dsimp only
  split
  · exact refl s
  · have herase : ∀ q, s.Quiet (s.modify v fun m => { m with incoming := q }) := fun q =>
      modify ⟨id, fun hvalid => ⟨hvalid, rfl, rfl, rfl, rfl, .inl rfl⟩⟩
    exact (herase _).trans ((of_recount (.dropAddresses _ _)).trans (post _ _ rfl))

theorem noSenders (h : s.noSenders v = .ok s') : s.Quiet s' := by
  rw [State.noSenders] at h
  split at h
  · cases h
    exact refl _
  · split at h
    · cases h
      exact refl _
    · exact wakeReceiver h

end State.Quiet

/-! What is not quiet, one VM at a time. -/

namespace Vm.Armed
variable {m : Vm} {fresh : Nat}

theorem count_eq_zero (h : m.Armed strict fresh) {k : Nat} (hk : k ∉ m.serviceIds) :
    m.waits.count k = 0 :=
  List.count_eq_zero_of_not_mem fun hmem => hk (h.known k hmem)

/-- `async_enqueue` for every service, when a fiber begins to receive. -/
theorem enqueueServices (h : m.Armed strict fresh) {fresh' : Nat} (hle : fresh ≤ fresh') {m' : Vm}
    (halive : m'.alive = m.alive) (hservices : m'.services = m.enqueueServices.services)
    (hwaits : m'.waits = m.enqueueServices.waits) (hattaching : m'.attaching = m.attaching) :
    m'.Armed strict fresh' := by
  have hids : m'.serviceIds = m.serviceIds := by
    rw [Vm.serviceIds, hservices, Vm.enqueueServices, List.map_map]
    rfl
  have hnodup : m.serviceIds.Nodup := (List.nodup_append.mp h.distinct).1
  have hrunning : ∀ k ∈ m'.services, k.running = true := by
    intro k hk
    rw [hservices, Vm.enqueueServices] at hk
    obtain ⟨x, -, rfl⟩ := List.mem_map.mp hk
    rfl
  constructor
  · exact halive.trans h.alive
  · intro k hk
    rw [hrunning k hk, if_pos rfl, hwaits]
    rw [hservices, Vm.enqueueServices] at hk
    obtain ⟨x, hx, rfl⟩ := List.mem_map.mp hk
    -- a wait is added for the services that were not running, and only for them
    have hadded : ((m.services.filter fun k => !k.running).map Service.id).count x.id =
        if x.running then 0 else 1 := by
      cases hrun : x.running with
      | true =>
          refine List.count_eq_zero_of_not_mem fun hmem => ?_
          obtain ⟨y, hy, hid⟩ := List.mem_map.mp hmem
          obtain ⟨hy, hno⟩ := List.mem_filter.mp hy
          rw [List.inj_on_of_nodup_map hnodup hy hx hid, hrun] at hno
          cases hno
      | false =>
          have hmem : x.id ∈ (m.services.filter fun k => !k.running).map Service.id :=
            List.mem_map_of_mem (List.mem_filter.mpr ⟨hx, by simp [hrun]⟩)
          exact List.count_eq_one_of_mem ((List.filter_sublist.map Service.id).nodup hnodup) hmem
    rw [Vm.enqueueServices, List.count_append, hadded, h.one x hx]
    split <;> rfl
  · intro k hk
    rw [hids]
    rw [hwaits, Vm.enqueueServices] at hk
    rcases List.mem_append.mp hk with hk | hk
    · exact h.known k hk
    · exact (List.filter_sublist.map Service.id).subset hk
  · rw [hids, hattaching]
    exact h.distinct
  · rw [hids, hattaching]
    exact fun k hk => (h.old k hk).trans_le hle
  · exact fun _ _ => hrunning

/-- A service that is not running is put at the end. -/
theorem attach (h : m.Armed strict fresh) {m' : Vm} {fresh' id : Nat} (hle : fresh ≤ fresh')
    (hid : id < fresh') (hnew : id ∉ m.serviceIds) (halive : m'.alive = m.alive)
    (hservices : m'.services = m.services ++ [⟨id, false⟩])
    (hwaits : m'.waits = m.waits) (hattaching : ∀ k, k ∈ m'.attaching → k ∈ m.attaching ∧ k ≠ id)
    (hnodup : m'.attaching.Nodup) (hrecv : strict → m'.recvFiber = none) : m'.Armed strict fresh' := by
  have hids : m'.serviceIds = m.serviceIds ++ [id] := by
    rw [Vm.serviceIds, hservices, List.map_append]
    rfl
  obtain ⟨hsnodup, -, hdisjoint⟩ := List.nodup_append.mp h.distinct
  constructor
  · exact halive.trans h.alive
  · intro k hk
    rw [hwaits]
    rw [hservices] at hk
    rcases List.mem_append.mp hk with hk | hk
    · exact h.one k hk
    · rw [List.mem_singleton.mp hk]
      exact h.count_eq_zero hnew
  · intro k hk
    rw [hids]
    exact List.mem_append_left _ (h.known k (hwaits ▸ hk))
  · rw [hids]
    refine List.nodup_append.mpr ⟨List.nodup_append.mpr ⟨hsnodup, List.nodup_singleton _, ?_⟩, hnodup, ?_⟩
    · rintro a ha b hb rfl
      exact hnew (List.mem_singleton.mp hb ▸ ha)
    · rintro a ha b hb rfl
      obtain ⟨hmem, hne⟩ := hattaching a hb
      rcases List.mem_append.mp ha with ha | ha
      · exact hdisjoint a ha a hmem rfl
      · exact hne (List.mem_singleton.mp ha)
  · intro k hk
    rw [hids] at hk
    rcases List.mem_append.mp hk with hk | hk
    · rcases List.mem_append.mp hk with hk | hk
      · exact (h.old k (List.mem_append_left _ hk)).trans_le hle
      · exact List.mem_singleton.mp hk ▸ hid
    · exact (h.old k (List.mem_append_right _ (hattaching k hk).1)).trans_le hle
  · intro hs hne
    exact absurd (hrecv hs) hne

/-- The wait of a service is over, and it is removed. -/
theorem remove (h : m.Armed strict fresh) {m' : Vm} {k : Nat}
    (halive : m'.alive = m.alive) (hservices : m'.services = m.services.filter fun x => x.id != k)
    (hwaits : m'.waits = m.waits.erase k) (hcount : m.waits.count k ≤ 1)
    (hattaching : m'.attaching = m.attaching)
    (hrecv : m'.recvFiber = m.recvFiber ∨ m'.recvFiber = none) : m'.Armed strict fresh := by
  have hsub : m'.serviceIds.Sublist m.serviceIds := by
    rw [Vm.serviceIds, hservices]
    exact List.filter_sublist.map Service.id
  have hsub' : (m'.serviceIds ++ m'.attaching).Sublist (m.serviceIds ++ m.attaching) :=
    hattaching ▸ hsub.append_right _
  constructor
  · exact halive.trans h.alive
  · intro x hx
    rw [hservices] at hx
    obtain ⟨hx, hne⟩ := List.mem_filter.mp hx
    rw [hwaits, List.count_erase_of_ne (by simpa using hne)]
    exact h.one x hx
  · intro j hj
    rw [hwaits] at hj
    have hjk : j ≠ k := by
      rintro rfl
      have hpos := List.count_pos_iff.mpr hj
      rw [List.count_erase_self] at hpos
      omega
    obtain ⟨x, hx, rfl⟩ := List.mem_map.mp (h.known j (List.mem_of_mem_erase hj))
    rw [Vm.serviceIds, hservices]
    exact List.mem_map_of_mem (List.mem_filter.mpr ⟨hx, by simpa using hjk⟩)
  · exact hsub'.nodup h.distinct
  · exact fun j hj => h.old j (hsub'.subset hj)
  · intro hs hne x hx
    rw [hservices] at hx
    refine h.awake hs (fun hnone => hne ?_) x (List.mem_filter.mp hx).1
    rcases hrecv with heq | heq
    · rw [heq, hnone]
    · exact heq

/-- The wait of a service is over, and it stays idle until somebody receives. -/
theorem idle (h : m.Armed strict fresh) {m' : Vm} {k : Nat} (hk : k ∈ m.waits)
    (halive : m'.alive = m.alive)
    (hservices : m'.services = m.services.map fun x => if x.id = k then { x with running := false } else x)
    (hwaits : m'.waits = m.waits.erase k) (hattaching : m'.attaching = m.attaching)
    (hrecv : strict → m'.recvFiber = none) : m'.Armed strict fresh := by
  have hids : m'.serviceIds = m.serviceIds := by
    rw [Vm.serviceIds, hservices, List.map_map]
    refine List.map_congr_left fun x _ => ?_
    dsimp only [Function.comp_apply]
    split <;> rfl
  constructor
  · exact halive.trans h.alive
  · intro x hx
    rw [hservices] at hx
    obtain ⟨y, hy, rfl⟩ := List.mem_map.mp hx
    rw [hwaits]
    by_cases hyk : y.id = k
    · rw [if_pos hyk]
      have hone := h.one y hy
      have hpos := List.count_pos_iff.mpr hk
      rw [hyk] at hone
      simp only [hyk, List.count_erase_self]
      split at hone
      · simp [hone]
      · omega
    · rw [if_neg hyk, List.count_erase_of_ne hyk]
      exact h.one y hy
  · intro j hj
    rw [hids]
    exact h.known j (List.mem_of_mem_erase (hwaits ▸ hj))
  · rw [hids, hattaching]
    exact h.distinct
  · rw [hids, hattaching]
    exact h.old
  · intro hs hne
    exact absurd (hrecv hs) hne

theorem count_le_one (h : m.Armed strict fresh) (k : Nat) : m.waits.count k ≤ 1 := by
  by_cases hk : k ∈ m.serviceIds
  · obtain ⟨x, hx, rfl⟩ := List.mem_map.mp hk
    rw [h.one x hx]
    split <;> simp
  · rw [h.count_eq_zero hk]
    exact Nat.zero_le _

/-- The wait of a service is over, and it is armed again. -/
theorem rearm (h : m.Armed strict fresh) {k : Nat} (hk : k ∈ m.waits) :
    Vm.Armed strict fresh { m with waits := m.waits.erase k ++ [k] } := by
  have hperm : (m.waits.erase k ++ [k]).Perm m.waits :=
    List.perm_append_comm.trans (List.perm_cons_erase hk).symm
  exact ⟨h.alive, fun x hx => (hperm.count_eq _).trans (h.one x hx),
    fun j hj => h.known j (hperm.mem_iff.mp hj), h.distinct, h.old, h.awake⟩

/-- A service is attached while a fiber receives, and armed at once. -/
theorem attachArmed (h : m.Armed strict fresh) {m' : Vm} {id : Nat} (hid : id < fresh)
    (hnew : id ∉ m.serviceIds) (halive : m'.alive = m.alive) (hservices : m'.services = m.services ++ [⟨id, true⟩])
    (hwaits : m'.waits = m.waits ++ [id]) (hattaching : ∀ k, k ∈ m'.attaching → k ∈ m.attaching ∧ k ≠ id)
    (hnodup : m'.attaching.Nodup) (hrecv : m'.recvFiber = m.recvFiber) : m'.Armed strict fresh := by
  have hids : m'.serviceIds = m.serviceIds ++ [id] := by
    rw [Vm.serviceIds, hservices, List.map_append]
    rfl
  obtain ⟨hsnodup, -, hdisjoint⟩ := List.nodup_append.mp h.distinct
  constructor
  · exact halive.trans h.alive
  · intro k hk
    rw [hwaits, List.count_append]
    rw [hservices] at hk
    rcases List.mem_append.mp hk with hk | hk
    · have hne : id ≠ k.id := fun heq => hnew (heq ▸ List.mem_map_of_mem hk)
      have hzero : [id].count k.id = 0 := List.count_eq_zero_of_not_mem (by simpa using Ne.symm hne)
      rw [h.one k hk, hzero, add_zero]
    · rw [List.mem_singleton.mp hk, h.count_eq_zero hnew]
      simp
  · intro k hk
    rw [hids]
    rw [hwaits] at hk
    rcases List.mem_append.mp hk with hk | hk
    · exact List.mem_append_left _ (h.known k hk)
    · exact List.mem_append_right _ hk
  · rw [hids]
    refine List.nodup_append.mpr ⟨List.nodup_append.mpr ⟨hsnodup, List.nodup_singleton _, ?_⟩, hnodup, ?_⟩
    · rintro a ha b hb rfl
      exact hnew (List.mem_singleton.mp hb ▸ ha)
    · rintro a ha b hb rfl
      obtain ⟨hmem, hne⟩ := hattaching a hb
      rcases List.mem_append.mp ha with ha | ha
      · exact hdisjoint a ha a hmem rfl
      · exact hne (List.mem_singleton.mp ha)
  · intro k hk
    rw [hids] at hk
    rcases List.mem_append.mp hk with hk | hk
    · rcases List.mem_append.mp hk with hk | hk
      · exact h.old k (List.mem_append_left _ hk)
      · exact List.mem_singleton.mp hk ▸ hid
    · exact h.old k (List.mem_append_right _ (hattaching k hk).1)
  · intro hs hne k hk
    rw [hservices] at hk
    rcases List.mem_append.mp hk with hk | hk
    · exact h.awake hs (hrecv ▸ hne) k hk
    · rw [List.mem_singleton.mp hk]

/-- A handler that will attach a new service has been posted. -/
theorem announce (h : m.Armed strict fresh) {m' : Vm} (halive : m'.alive = m.alive)
    (hservices : m'.services = m.services) (hwaits : m'.waits = m.waits)
    (hattaching : m'.attaching = m.attaching ++ [fresh])
    (hrecv : m'.recvFiber = m.recvFiber) : m'.Armed strict (fresh + 1) := by
  have hall : m'.serviceIds ++ m'.attaching = (m.serviceIds ++ m.attaching) ++ [fresh] := by
    rw [Vm.serviceIds, hservices, hattaching, List.append_assoc]
    rfl
  constructor
  · exact halive.trans h.alive
  · rw [hservices, hwaits]
    exact h.one
  · rw [Vm.serviceIds, hservices, hwaits]
    exact h.known
  · rw [hall]
    refine List.nodup_append.mpr ⟨h.distinct, List.nodup_singleton _, ?_⟩
    rintro a ha b hb rfl
    exact absurd (h.old a ha) (by rw [List.mem_singleton.mp hb]; exact lt_irrefl _)
  · intro k hk
    rw [hall] at hk
    rcases List.mem_append.mp hk with hk | hk
    · exact (h.old k hk).trans (Nat.lt_succ_self _)
    · exact List.mem_singleton.mp hk ▸ Nat.lt_succ_self _
  · rw [hservices, hrecv]
    exact h.awake

end Vm.Armed

namespace AllArmed

/-- One VM is not quiet. -/
theorem modify (h : AllArmed strict s) {g : Vm → Vm} (hshut : (s.vms v).Shut → (g (s.vms v)).Shut)
    (hg : (g (s.vms v)).valid = true → (g (s.vms v)).Armed strict s.fresh) :
    AllArmed strict (s.modify v g) :=
  ⟨State.modify_vms_cases (Q := fun _ m => m.Shut) g (hshut (h.shut v)) fun u _ => h.shut u,
    State.modify_vms_cases (Q := fun _ m => m.valid = true → m.Armed strict s.fresh) g hg
      fun u _ => h.armed u⟩

theorem modify_tick (h : AllArmed strict s) {g : Vm → Vm}
    (hshut : (s.vms v).Shut → (g (s.vms v)).Shut)
    (hg : (g (s.vms v)).valid = true → (g (s.vms v)).Armed strict (s.fresh + 1)) :
    AllArmed strict (s.modify v g).tick :=
  ⟨State.modify_vms_cases (Q := fun _ m => m.Shut) g (hshut (h.shut v)) fun u _ => h.shut u,
    State.modify_vms_cases (Q := fun _ m => m.valid = true → m.Armed strict (s.fresh + 1)) g hg
      fun u _ hvalid => (h.armed u hvalid).quiet hvalid (.refl _) (Nat.le_succ _)⟩

theorem waitForMessage (h : AllArmed strict s) (hvalid : (s.vms v).valid = true) (f : FiberId) :
    AllArmed strict (s.waitForMessage v f) := by
  have hwait : AllArmed strict (s.modify v fun m =>
      { (m.switch f .receive (.receiving s.fresh)).enqueueServices with recvFiber := some f }).tick :=
    h.modify_tick id fun _ => (h.armed v hvalid).enqueueServices (Nat.le_succ _) rfl rfl rfl rfl
  exact hwait.quiet (.yield _ _)

theorem exportAddress (h : AllArmed strict s) (d : VmId) : AllArmed strict (s.exportAddress d) := by
  rw [State.exportAddress]
  split
  · have hpost : AllArmed strict (s.modify d fun m =>
        { m with nsenders := m.nsenders + 1, strand := m.strand ++ [.attachService s.fresh] }).tick := by
      refine h.modify_tick id fun hvalid => (h.armed d hvalid).announce rfl rfl rfl ?_ rfl
      simp [Vm.attaching, Handler.attaching?]
    have heq : (s.modify d fun m => { m with nsenders := m.nsenders + 1 }).post d (.attachService s.fresh) =
        s.modify d fun m =>
          { m with nsenders := m.nsenders + 1, strand := m.strand ++ [.attachService s.fresh] } := by
      simp [State.post, State.modify]
    rw [heq]
    exact hpost
  · exact h

theorem exportInbox (h : AllArmed strict s) (hrecv : strict → (s.vms v).recvFiber = none) :
    AllArmed strict (s.exportInbox v) := by
  refine h.modify_tick id fun hvalid => ?_
  have harmed := h.armed v hvalid
  refine harmed.attach (Nat.le_succ s.fresh) (Nat.lt_succ_self _) (fun hmem => ?_) rfl rfl rfl
    (fun k hk => ⟨hk, fun heq => ?_⟩) ?_ hrecv
  · exact absurd (harmed.old _ (List.mem_append_left _ hmem)) (lt_irrefl _)
  · exact absurd (harmed.old _ (List.mem_append_right _ (heq ▸ hk))) (lt_irrefl _)
  · exact (List.nodup_append.mp harmed.distinct).2.1

theorem addVm (h : AllArmed strict s) (n : Nat) : AllArmed strict (s.addVm (Vm.fresh n)) := by
  constructor
  · intro u
    by_cases hu : u = s.vmCount
    · subst hu
      rw [State.addVm_vms_self]
      exact fun _ => rfl
    · rw [State.addVm_vms_ne s hu]
      exact h.shut u
  · intro u hvalid
    by_cases hu : u = s.vmCount
    · subst hu
      rw [State.addVm_vms_self]
      constructor <;> simp [Vm.fresh, Vm.serviceIds, Vm.attaching]
    · rw [State.addVm_vms_ne s hu] at hvalid ⊢
      exact h.armed u hvalid

/-- The handler that attaches a service runs. -/
theorem attachService (h : AllArmed strict s) {id : Nat} {xs : List Handler}
    (hstrand : (s.vms v).strand = .attachService id :: xs) :
    AllArmed strict ((s.modify v fun m => { m with strand := xs }).attachService v id) := by
  have heq : (s.modify v fun m => { m with strand := xs }).attachService v id =
      s.modify v fun m =>
        if m.valid = false then { m with strand := xs }
        else if m.recvFiber.isSome then
          { m with strand := xs, services := m.services ++ [⟨id, true⟩], waits := m.waits ++ [id] }
        else { m with strand := xs, services := m.services ++ [⟨id, false⟩] } := by
    simp only [State.attachService, State.modify, Function.update_self, Function.update_idem]
  have hattaching : (s.vms v).attaching = id :: xs.filterMap Handler.attaching? := by
    rw [Vm.attaching, hstrand]
    rfl
  rw [heq]
  refine h.modify (fun hshut => ?_) fun hvalid => ?_
  · split
    · exact hshut
    · split <;> exact hshut
  by_cases hv : (s.vms v).valid = true
  · have harmed := h.armed v hv
    obtain ⟨-, hanodup, hdisjoint⟩ := List.nodup_append.mp harmed.distinct
    have hid : id ∈ (s.vms v).attaching := hattaching ▸ List.mem_cons_self
    have hnew : id ∉ (s.vms v).serviceIds := fun hmem => hdisjoint id hmem id hid rfl
    have hlt := harmed.old id (List.mem_append_right _ hid)
    rw [hattaching, List.nodup_cons] at hanodup
    have hrest : ∀ k, k ∈ xs.filterMap Handler.attaching? → k ∈ (s.vms v).attaching ∧ k ≠ id := by
      intro k hk
      rw [hattaching]
      exact ⟨List.mem_cons_of_mem _ hk, fun heq => hanodup.1 (heq ▸ hk)⟩
    rw [hv, if_neg (by simp)]
    split
    · exact harmed.attachArmed hlt hnew rfl rfl rfl hrest hanodup.2 rfl
    · next hnone => exact harmed.attach le_rfl hlt hnew rfl rfl rfl hrest hanodup.2 fun _ => by simpa using hnone
  · have hno : (s.vms v).valid = false := by simpa using hv
    simp [hno] at hvalid

/-- The service of a wait that is over is removed, and nothing else changes. -/
theorem removeService (h : AllArmed strict s) {k : Nat} {g : Vm → Vm}
    (hshut : (s.vms v).Shut → (g (s.vms v)).Shut)
    (hvalid : (g (s.vms v)).valid = (s.vms v).valid) (halive : (g (s.vms v)).alive = (s.vms v).alive)
    (hservices : ((g (s.vms v)).services.filter fun x => x.id != k) =
      (s.vms v).services.filter fun x => x.id != k)
    (hwaits : (g (s.vms v)).waits = (s.vms v).waits.erase k)
    (hattaching : (g (s.vms v)).attaching = (s.vms v).attaching)
    (hrecv : (g (s.vms v)).recvFiber = (s.vms v).recvFiber) :
    AllArmed strict ((s.modify v g).removeService v k) := by
  have heq : (s.modify v g).removeService v k = s.modify v fun m =>
      { g m with services := (g m).services.filter fun x => x.id != k, nsenders := (g m).nsenders - 1 } := by
    simp only [State.removeService, State.modify, Function.update_self, Function.update_idem]
  rw [heq]
  refine h.modify hshut fun hv => ?_
  have harmed := h.armed v (hvalid ▸ hv)
  exact harmed.remove halive hservices hwaits (harmed.count_le_one k) hattaching (.inl hrecv)

theorem loseService (h : AllArmed strict s) {k : Nat} {g : Vm → Vm}
    (hshut : (s.vms v).Shut → (g (s.vms v)).Shut)
    (hvalid : (g (s.vms v)).valid = (s.vms v).valid) (halive : (g (s.vms v)).alive = (s.vms v).alive)
    (hservices : ((g (s.vms v)).services.filter fun x => x.id != k) =
      (s.vms v).services.filter fun x => x.id != k)
    (hwaits : (g (s.vms v)).waits = (s.vms v).waits.erase k)
    (hattaching : (g (s.vms v)).attaching = (s.vms v).attaching)
    (hrecv : (g (s.vms v)).recvFiber = (s.vms v).recvFiber)
    (hlose : (s.modify v g).loseService v k = .ok s') : AllArmed strict s' := by
  have hremove := h.removeService (k := k) hshut hvalid halive hservices hwaits hattaching hrecv
  rw [State.loseService] at hlose
  split at hlose
  · cases hlose
    exact hremove
  · split at hlose
    · exact hremove.quiet (.wakeReceiver hlose)
    · cases hlose
      exact hremove

theorem filter_idle (services : List Service) (k : Nat) :
    ((services.map fun x => if x.id = k then { x with running := false } else x).filter
      fun x => x.id != k) = services.filter fun x => x.id != k := by
  induction services with
  | nil => rfl
  | cons x xs ih =>
      by_cases hx : x.id = k
      · simp [hx, ih]
      · simp [hx, ih]

theorem onPacket {c : Config} (h : AllArmed strict s) {k : Nat} (hk : k ∈ (s.vms v).waits)
    {r : Received c}
    (hpacket : (s.modify v fun m => { m with waits := m.waits.erase k }).onPacket v k r = .ok s') :
    AllArmed strict s' := by
  rw [State.onPacket] at hpacket
  split at hpacket
  · exact h.loseService id rfl rfl rfl rfl rfl rfl hpacket
  · let g : Vm → Vm := fun m =>
      { m with
        waits := m.waits.erase k
        services := m.services.map fun x => if x.id = k then { x with running := false } else x }
    have heq : ((s.modify v fun m => { m with waits := m.waits.erase k }).modify v fun m =>
        { m with services := m.services.map fun x => if x.id = k then { x with running := false } else x }) =
          s.modify v g := by
      simp only [State.modify, Function.update_self, Function.update_idem, g]
    rw [heq] at hpacket
    dsimp only at hpacket
    have hidle : (s.vms v).valid = true → ∀ {m' : Vm}, m'.alive = (s.vms v).alive →
        m'.services = (g (s.vms v)).services → m'.waits = (s.vms v).waits.erase k →
        m'.attaching = (s.vms v).attaching → (strict → m'.recvFiber = none) → m'.Armed strict s.fresh :=
      fun hvalid _ halive hservices hwaits hattaching hrecv =>
        (h.armed v hvalid).idle hk halive hservices hwaits hattaching hrecv
    split at hpacket
    · next hrecv =>
        rw [State.modify_vms_self] at hrecv
        split at hpacket
        · cases hpacket
          refine AllArmed.quiet (s := s.modify v g) ?_ (.modify ⟨id, fun hvalid => ⟨hvalid, rfl, rfl, rfl, rfl, .inl rfl⟩⟩)
          exact h.modify id fun hvalid => hidle hvalid rfl rfl rfl rfl fun _ => hrecv
        · cases hpacket
          exact h.removeService id rfl rfl (filter_idle _ k) rfl rfl rfl
        · cases hpacket
    · split at hpacket
      · have hreset : (s.modify v g).modify v (fun m => { m with recvFiber := none }) =
            s.modify v fun m => { g m with recvFiber := none } := by
          simp only [State.modify, Function.update_self, Function.update_idem]
        rw [hreset] at hpacket
        refine AllArmed.quiet (s := s.modify v fun m => { g m with recvFiber := none }) ?_ (.fiberResume hpacket)
        exact h.modify id fun hvalid => hidle hvalid rfl rfl rfl rfl fun _ => rfl
      · exact h.loseService id rfl rfl (filter_idle _ k) rfl rfl rfl hpacket
      · cases hpacket

theorem onWait {c : Config} (h : AllArmed strict s) {k : Nat} (hk : k ∈ (s.vms v).waits)
    {event : WaitEvent c} (hwait : s.onWait v k event = .ok s') : AllArmed strict s' := by
  rw [State.onWait.eq_def] at hwait
  dsimp only at hwait
  split at hwait
  · next hgone =>
      cases hwait
      refine h.modify id fun hvalid => ?_
      rw [State.modify_vms_self] at hgone
      rcases hgone with hdead | hclosed
      · exact absurd ((h.armed v hvalid).alive.symm.trans hdead) (by simp)
      · exact absurd (hclosed.symm.trans hvalid) (by simp)
  · split at hwait
    · cases hwait
    · split at hwait
      · cases hwait
        exact h.removeService id rfl rfl rfl rfl rfl rfl
      · cases event with
        | failed => exact h.loseService id rfl rfl rfl rfl rfl rfl hwait
        | broken => exact h.loseService id rfl rfl rfl rfl rfl rfl hwait
        | again =>
            cases hwait
            have heq : ((s.modify v fun m => { m with waits := m.waits.erase k }).modify v fun m =>
                { m with waits := m.waits ++ [k] }) =
                  s.modify v fun m => { m with waits := m.waits.erase k ++ [k] } := by
              simp only [State.modify, Function.update_self, Function.update_idem]
            rw [heq]
            exact h.modify id fun hvalid => (h.armed v hvalid).rearm hk
        | packet r => exact h.onPacket hk hwait

theorem expire (h : AllArmed strict s)
    (hdestroy : (s.modify v fun m => { m with alive := false }).destroyVm v = .ok s') :
    AllArmed strict s' := by
  rw [State.destroyVm] at hdestroy
  split at hdestroy
  · have hquiet := State.Quiet.vmClose hdestroy
    have hdead : ∀ u, ((s.modify v fun m => { m with alive := false }).vms u).Shut :=
      State.modify_vms_cases (Q := fun _ m => m.Shut) _ (h.shut v) fun u _ => h.shut u
    refine ⟨fun u => (hquiet.vm u).shut (hdead u), fun u hu => ?_⟩
    by_cases huv : u = v
    · subst huv
      exact absurd (hu.symm.trans (State.Quiet.vmClose_valid hdestroy)) (by simp)
    · have hvalid := ((hquiet.vm u).kept hu).1
      rw [State.modify_vms_ne s huv] at hvalid
      exact (h.armed u hvalid).quiet hu (State.modify_vms_ne s huv _ ▸ hquiet.vm u) hquiet.fresh
  · next hclosed =>
      cases hdestroy
      refine h.modify id fun hvalid => absurd ?_ hclosed
      simpa using hvalid

end AllArmed

/-- The own inbox is exported while a fiber waits on it. -/
def lateExport {c : Config} (s : State) : Action c → Prop
  | .exportInbox v => (s.vms v).recvFiber ≠ none
  | _ => False

theorem exec_armed {c : Config} {a : Action c} (h : AllArmed strict s)
    (hlate : strict → ¬ lateExport s a) (hexec : exec s a = .ok s') : AllArmed strict s' := by
  cases a with
  | chanSend v handle msg suspendAllowed =>
      obtain ⟨f, -, -, hk⟩ := exec_running hexec
      split at hk
      · cases hk
      · split at hk
        · split at hk
          · cases hk
            exact h
          · cases hk
            exact h.quiet (.chanSend ..)
        · cases hk
  | chanReceive v suspendAllowed =>
      obtain ⟨f, hvalid, -, hk⟩ := exec_running hexec
      split at hk
      · cases hk
      · split at hk
        · cases hk
          exact h
        · cases hk
          rw [State.chanReceive]
          split
          · exact h
          · split
            · exact h
            · split
              · exact h.quiet (.receiveQueuedEntry ..)
              · split
                · exact h
                · exact h.waitForMessage hvalid f
  | inboxClose v =>
      obtain ⟨f, -, -, hk⟩ := exec_running hexec
      split at hk
      · cases hk
      · exact h.quiet (.inboxClose hk)
  | inboxGc v =>
      obtain ⟨f, -, -, hk⟩ := exec_running hexec
      split at hk
      · exact h.quiet (.inboxGc hk)
      · cases hk
  | fiberInterrupt v g =>
      obtain ⟨f, -, -, hk⟩ := exec_running hexec
      split at hk
      · cases hk
        exact h
      · exact h.quiet (.fiberInterrupt hk)
  | exportAddress v handle =>
      obtain ⟨f, -, -, hk⟩ := exec_running hexec
      split at hk
      · cases hk
      · cases hk
        exact h.exportAddress _
  | exportInbox v =>
      obtain ⟨f, -, -, hk⟩ := exec_running hexec
      split at hk
      · cases hk
      · cases hk
        exact h.exportInbox fun hs => not_not.mp (hlate hs)
  | dropHandle v handle =>
      obtain ⟨f, -, -, hk⟩ := exec_running hexec
      split at hk
      · cases hk
      · cases hk
        have hrelease : ∀ a, s.Quiet (s.modify v fun m => { m with addresses := a }) := fun _ =>
          .modify ⟨id, fun hvalid => ⟨hvalid, rfl, rfl, rfl, rfl, .inl rfl⟩⟩
        exact h.quiet ((hrelease _).trans (.of_recount (.dropAddress _ _)))
  | spawnVm v =>
      obtain ⟨f, -, -, hk⟩ := exec_running hexec
      cases hk
      exact (h.addVm 1).quiet (.adoptAddresses _ v [s.vmCount])
  | importInbox v =>
      obtain ⟨f, -, -, hk⟩ := exec_running hexec
      cases hk
      exact h.quiet (.modify ⟨id, fun hvalid => ⟨hvalid, rfl, rfl, rfl, rfl, .inl rfl⟩⟩)
  | setInterruption v disabled =>
      obtain ⟨f, -, -, hk⟩ := exec_running hexec
      cases hk
      exact h.quiet (.modify ⟨id, fun hvalid => ⟨hvalid, rfl, rfl, rfl, rfl, .inl rfl⟩⟩)
  | suspendElsewhere v =>
      obtain ⟨f, -, -, hk⟩ := exec_running hexec
      cases hk
      have hpark : s.Quiet (s.modify v fun m => m.setFiber f fun g => { g with suspension := .elsewhere }) :=
        .modify ⟨id, fun hvalid => ⟨hvalid, rfl, rfl, rfl, rfl, .inl rfl⟩⟩
      exact h.quiet (hpark.trans (.yield _ _))
  | fiberEpilogue v joiner =>
      obtain ⟨f, -, -, hk⟩ := exec_running hexec
      exact h.quiet (.fiberEpilogue hk)
  | vmClose v =>
      obtain ⟨f, -, -, hk⟩ := exec_running hexec
      exact h.quiet (.vmClose hk)
  | resumeElsewhere v f =>
      rw [exec] at hexec
      split at hexec
      · cases hexec
        exact h.quiet (.modify ⟨id, fun hvalid => ⟨hvalid, rfl, rfl, rfl, rfl, .inl rfl⟩⟩)
      · cases hexec
  | runHandler v =>
      rw [exec] at hexec
      split at hexec
      · next x xs _ hstrand =>
          have hpop : x.attaching? = none → s.Quiet (s.modify v fun m => { m with strand := xs }) := by
            intro hx
            refine .modify ⟨id, fun hvalid => ⟨hvalid, rfl, rfl, rfl, ?_, .inl rfl⟩⟩
            rw [Vm.attaching, Vm.attaching, hstrand, List.filterMap_cons_none hx]
          cases x with
          | deliver p msg n => exact h.quiet ((hpop rfl).trans (.deliver hexec))
          | interruptSend u f =>
              cases hexec
              exact h.quiet ((hpop rfl).trans (.interruptSend ..))
          | resume fiber error => exact h.quiet ((hpop rfl).trans (.fiberResume hexec))
          | noSenders => exact h.quiet ((hpop rfl).trans (.noSenders hexec))
          | attachService k =>
              cases hexec
              exact h.attachService hstrand
      · cases hexec
  | onWait v k event =>
      rw [exec] at hexec
      split at hexec
      · next hwait => exact h.onWait hwait.2 hexec
      · cases hexec
  | expire v =>
      rw [exec] at hexec
      split at hexec
      · exact h.expire hexec
      · cases hexec

theorem AllArmed.initial (strict : Prop) (hinit : Initial s) : AllArmed strict s := by
  obtain ⟨child, rfl⟩ := hinit
  have habsent : ∀ v ≠ 0, (State.initial child).vms v = Vm.absent := fun v hv => by
    simp [State.initial, hv]
  have hzero : ((State.initial child).vms 0).valid = true := by cases child <;> rfl
  constructor
  · intro v
    by_cases hv : v = 0
    · subst hv
      exact fun _ => hzero
    · rw [habsent v hv]
      exact fun hopen => by cases hopen
  · intro v hvalid
    by_cases hv : v = 0
    · subst hv
      cases child <;> constructor <;> simp [State.initial, Vm.fresh, Vm.serviceIds, Vm.attaching]
    · rw [habsent v hv] at hvalid
      cases hvalid

end

/-! What a reachable state promises the peers of an open inbox. -/

/-- No service has two waits. While a fiber waits to receive, each has one, and
its next packet resumes that fiber. -/
structure Listening (c : Config) (s : State) (v : VmId) : Prop where
  single : ∀ k, (s.vms v).waits.count k ≤ 1
  armed : (s.vms v).recvFiber ≠ none →
    ∀ k ∈ (s.vms v).services, k.running = true ∧ (s.vms v).waits.count k.id = 1
  reached : ∀ f, (s.vms v).recvFiber = some f → (s.vms v).current = none →
    ∀ k ∈ (s.vms v).services, ∀ r : Received c, r.read ≠ none →
      ∃ n s', s.suspension (v, f) = .receiving n ∧ Step c s (.onWait v k.id (.packet r)) s' ∧
        (s'.vms v).current = some f ∧ s'.hist = s.hist.wake n none

section
variable {c : Config} {s : State} {v : VmId}

theorem directDelivery_of_read {r : Received c} (hr : r.read ≠ none) (h : Heap) :
    r.tooShort = false ∧ ∃ msg closed, directDelivery r h = .delivered msg closed := by
  have hshort : r.tooShort = false := by
    cases htoo : r.tooShort with
    | false => rfl
    | true => exact absurd (by rw [Received.read, htoo, if_pos rfl]) hr
  have hspec := receiveDirect_spec r h
  obtain ⟨m, hm⟩ := Option.ne_none_iff_exists'.mp hr
  rw [hm, receiveDirect, hshort, if_neg (by simp)] at hspec
  obtain ⟨x, h', closed, hdelivered, -⟩ := hspec
  exact ⟨hshort, (x, h'), closed, hdelivered⟩

/-- A wait of an armed service is over: the packet goes to the waiting fiber. -/
theorem State.onWait_reaches {strict : Prop} (harmed : (s.vms v).Armed strict s.fresh)
    (hvalid : (s.vms v).valid = true) (hopen : (s.vms v).isOpen = true) {f : FiberId}
    (hrecv : (s.vms v).recvFiber = some f) {n : Nat} (hsusp : s.suspension (v, f) = .receiving n)
    {k : Nat} (hk : k ∈ (s.vms v).serviceIds) {r : Received c} (hr : r.read ≠ none) :
    ∃ s', s.onWait v k (.packet r) = .ok s' ∧ (s'.vms v).current = some f ∧
      s'.hist = s.hist.wake n none := by
  obtain ⟨hshort, msg, closed, hdelivered⟩ := directDelivery_of_read hr Heap.empty
  let t : State := ((s.modify v fun m => { m with waits := m.waits.erase k }).modify v fun m =>
    { m with services := m.services.map fun x => if x.id = k then { x with running := false } else x })
      |>.modify v fun m => { m with recvFiber := none }
  have hresume : t.fiberResume v (some f) none =
      .ok ((t.modify v (Vm.resumed · f)).record (t.hist.wake n none)) := by
    refine State.fiberResume_of_resumed ?_ ?_
    · simpa [t] using hvalid
    · rw [State.suspension] at hsusp ⊢
      simp [t, hsusp, Suspension.resumed]
  refine ⟨(t.modify v (Vm.resumed · f)).record (t.hist.wake n none), ?_, ?_, rfl⟩
  · have hwait : s.onWait v k (.packet r) = t.fiberResume v (some f) none := by
      obtain ⟨x, hx, hid⟩ := List.mem_map.mp hk
      have hmem : ∃ x ∈ (s.vms v).services, x.id = k := ⟨x, hx, hid⟩
      simp [State.onWait, State.onPacket, harmed.alive, hvalid, hopen, hshort, hrecv, hdelivered, hmem, t]
    rw [hwait, hresume]
  · simp [Vm.resumed]

/-- In every state reached without exporting an inbox that a fiber waits on,
every open inbox hears its peers. -/
theorem services_listening
    (hs : Reachable Initial (restrict (fun s a => ¬ lateExport s a) (Step c)) s)
    (hopen : (s.vms v).isOpen = true) : Listening c s v := by
  have hall : AllArmed True s := hs.invariant (fun s => .initial True)
    fun s a s' h hstep => exec_armed h (fun _ => hstep.1) hstep.2
  have hvalid := hall.shut v hopen
  have harmed := hall.armed v hvalid
  obtain ⟨b, hsound⟩ := Sound.reachable (fun _ _ _ h => ⟨h, (False.elim : False → _)⟩) hs.of_restrict
  have hwaiting : (s.vms v).recvFiber ≠ none →
      ∀ k ∈ (s.vms v).services, k.running = true ∧ (s.vms v).waits.count k.id = 1 := by
    intro hrecv k hk
    have hrun := harmed.awake trivial hrecv k hk
    refine ⟨hrun, ?_⟩
    rw [harmed.one k hk, hrun, if_pos rfl]
  refine ⟨harmed.count_le_one, hwaiting, fun f hf hidle k hk r hr => ?_⟩
  obtain ⟨-, n, hsusp⟩ := hsound.simulates.of_recvFiber hf
  obtain ⟨s', hwait, hcurrent, hhist⟩ := State.onWait_reaches harmed hvalid hopen hf hsusp
    (List.mem_map_of_mem hk) hr
  have hone := (hwaiting (by simp [hf]) k hk).2
  have hmem : k.id ∈ (s.vms v).waits := List.count_pos_iff.mp (by omega)
  refine ⟨n, s', hsusp, ?_, hcurrent, hhist⟩
  rw [Step, exec, if_pos ⟨hidle, hmem⟩, hwait]

/-- Fiber 1 of a child process waits for its parent; the main fiber runs. -/
def receivingFromParent : List (Action .standard) :=
  [.resumeElsewhere 0 0, .importInbox 0, .suspendElsewhere 0, .resumeElsewhere 0 1, .chanReceive 0 true]

def isLateExport (s : State) : Action .standard → Bool
  | .exportInbox v => (s.vms v).recvFiber.isSome
  | _ => false

theorem isLateExport_iff (s : State) (a : Action .standard) :
    isLateExport s a = true ↔ lateExport s a := by
  cases a <;> simp [isLateExport, lateExport, Option.isSome_iff_ne_none]

theorem services_listening_to_parent :
    ∃ s, Reachable Initial (restrict (fun s a => ¬ lateExport s a) (Step .standard)) s ∧
      (s.vms 0).isOpen = true ∧ (s.vms 0).recvFiber = some 1 ∧ (s.vms 0).services = [⟨0, true⟩] ∧
        Listening .standard s 0 := by
  have hrun : (runIf (fun s a => !isLateExport s a) (State.initial true) receivingFromParent).map
      (fun s => ((s.vms 0).isOpen, (s.vms 0).recvFiber, (s.vms 0).services)) =
        some (true, some 1, [⟨0, true⟩]) := by decide +kernel
  obtain ⟨s, hs, hobs⟩ := Option.map_eq_some_iff.mp hrun
  have hreach := reachable_of_runIf ⟨_, ⟨true, rfl⟩, .refl⟩ hs
  simp only [Bool.not_eq_true', ← Bool.not_eq_true, isLateExport_iff] at hreach
  simp only [Prod.mk.injEq] at hobs
  obtain ⟨hopen, hrecv, hservices⟩ := hobs
  exact ⟨s, hreach, hopen, hrecv, hservices, services_listening hreach hopen⟩

/-- An inbox that is exported while a fiber waits on it does not hear the new peer. -/
theorem late_export_is_not_heard :
    ∃ s, Reachable Initial (Step .standard) s ∧ (s.vms 0).isOpen = true ∧ ¬ Listening .standard s 0 := by
  have hrun : (runIf (fun _ _ => true) (State.initial true)
      (receivingFromParent ++ [.resumeElsewhere 0 0, .exportInbox 0])).map
      (fun s => ((s.vms 0).isOpen, (s.vms 0).recvFiber, (s.vms 0).services)) =
        some (true, some 1, [⟨0, true⟩, ⟨2, false⟩]) := by decide +kernel
  obtain ⟨s, hs, hobs⟩ := Option.map_eq_some_iff.mp hrun
  simp only [Prod.mk.injEq] at hobs
  obtain ⟨hopen, hrecv, hservices⟩ := hobs
  refine ⟨s, (reachable_of_runIf ⟨_, ⟨true, rfl⟩, .refl⟩ hs).of_restrict, hopen, fun h => ?_⟩
  have hrunning := (h.armed (by simp [hrecv]) ⟨2, false⟩ (by simp [hservices])).1
  cases hrunning

end

end Emilua.Actor
