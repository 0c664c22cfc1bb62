import Emilua.Actor.Services

/-!
The hand-written reference count of an inbox. Addresses live in userdata, in
queued messages and in the messages of posted deliveries; a service, attached
or about to be, counts as one more sender. Between two updates of an operation
the addresses it works on are in nobody's care but its own.
-/
namespace Emilua.Actor
open Emilua Ipc Token Relation Transition Wire

def Handler.addresses : Handler → List VmId
  | .deliver _ msg _ => msg.addresses
  | _ => []

/-- The `actor_address` objects that live in a VM. -/
def Vm.liveAddresses (m : Vm) : Multiset VmId :=
  ((m.addresses.map Prod.snd : List VmId) : Multiset VmId) +
    (m.incoming.flatMap fun e => e.msg.addresses : List VmId) + (m.strand.flatMap Handler.addresses : List VmId)

/-- All that counts as a sender and lives in VM `v`. -/
def Vm.refs (v : VmId) (m : Vm) : Multiset VmId :=
  m.liveAddresses + Multiset.replicate (m.services.length + m.attaching.length) v

namespace State

def liveAddresses (s : State) : Multiset VmId := total s.vmCount (fun _ m => m.liveAddresses) s.vms

def refs (s : State) : Multiset VmId := total s.vmCount Vm.refs s.vms

end State

/-- The count is never too low, and under `strict` it is right. `hand` are the
addresses of the operation that is going on. -/
structure Balanced (strict : Prop) (hand : Multiset VmId) (s : State) : Prop where
  present : ∀ d, (s.vms d).alive = true ∨ (s.vms d).valid = true → d < s.vmCount
  known : ∀ d ∈ s.refs + hand, d < s.vmCount
  enough : ∀ d, (s.vms d).alive = true → (s.vms d).valid = true →
    (s.refs + hand).count d ≤ (s.vms d).nsenders
  right : strict → ∀ d, (s.vms d).alive = true → (s.vms d).valid = true →
    (s.refs + hand).count d = (s.vms d).nsenders

section
variable {strict : Prop} {hand hand' : Multiset VmId} {s s' : State} {v : VmId}

/-- The addresses of a VM stay, and its services are counted anew. -/
theorem Vm.refs_count {m m' : Vm} (hlive : m'.liveAddresses = m.liveAddresses) {a b : Nat}
    (hcount : m'.services.length + m'.attaching.length + a = m.services.length + m.attaching.length + b)
    (hand : Multiset VmId) : m'.refs v + hand + Multiset.replicate a v =
      m.refs v + hand + Multiset.replicate b v := by
  have hservices : Multiset.replicate (m'.services.length + m'.attaching.length) v + Multiset.replicate a v =
      Multiset.replicate (m.services.length + m.attaching.length) v + Multiset.replicate b v := by
    rw [← Multiset.replicate_add, ← Multiset.replicate_add, hcount]
  rw [Vm.refs, Vm.refs, hlive, add_right_comm _ hand, add_assoc m.liveAddresses, hservices,
    ← add_assoc, add_right_comm _ _ hand]

theorem State.Recount.incoming (h : s.Recount s') (u : VmId) :
    (s'.vms u).incoming = (s.vms u).incoming := by
  obtain ⟨k, n, a, heq⟩ := h.vm u
  rw [heq]

theorem State.incoming_destroySender {e : SenderState} (h : s.destroySender e = .ok s') (u : VmId) :
    (s'.vms u).incoming = (s.vms u).incoming := by
  rw [State.destroySender] at h
  split at h
  · split at h
    · cases h
    · cases h
      rw [(State.Recount.dropAddresses _ _).incoming, State.post_vms]
  · cases h
    exact (State.Recount.dropAddresses _ _).incoming u

namespace Balanced

/-- One VM is modified. It gives up `a` and takes `b` senders of its own. -/
theorem modify (h : Balanced strict hand s) (hv : v < s.vmCount) {g : Vm → Vm} (a b : Nat)
    (hrefs : (g (s.vms v)).refs v + hand' + Multiset.replicate a v =
      (s.vms v).refs v + hand + Multiset.replicate b v)
    (hcount : (g (s.vms v)).alive = true → (g (s.vms v)).valid = true →
      (s.vms v).alive = true ∧ (s.vms v).valid = true ∧
        (g (s.vms v)).nsenders + a = (s.vms v).nsenders + b) :
    Balanced strict hand' (s.modify v g) := by
  have htotal : (s.modify v g).refs + hand' + Multiset.replicate a v =
      s.refs + hand + Multiset.replicate b v := by
    have hupdate : (s.modify v g).refs + (s.vms v).refs v = s.refs + (g (s.vms v)).refs v :=
      total_update Vm.refs s.vms hv _
    refine add_right_cancel (b := (s.vms v).refs v) ?_
    calc (s.modify v g).refs + hand' + Multiset.replicate a v + (s.vms v).refs v
        = ((s.modify v g).refs + (s.vms v).refs v) + (hand' + Multiset.replicate a v) := by abel
      _ = s.refs + ((g (s.vms v)).refs v + hand' + Multiset.replicate a v) := by rw [hupdate]; abel
      _ = s.refs + hand + Multiset.replicate b v + (s.vms v).refs v := by rw [hrefs]; abel
  have hper : ∀ d, ((s.modify v g).refs + hand').count d + (if d = v then a else 0) =
      (s.refs + hand).count d + if d = v then b else 0 := by
    intro d
    have hd := congrArg (Multiset.count d) htotal
    simpa only [Multiset.count_add, Multiset.count_replicate, eq_comm (a := v)] using hd
  have hcase : ∀ d, ((s.modify v g).vms d).alive = true → ((s.modify v g).vms d).valid = true →
      (s.vms d).alive = true ∧ (s.vms d).valid = true ∧
        ((s.modify v g).vms d).nsenders + (if d = v then a else 0) =
          (s.vms d).nsenders + if d = v then b else 0 := by
    intro d halive hvalid
    by_cases hd : d = v
    · subst hd
      rw [State.modify_vms_self] at halive hvalid ⊢
      simpa using hcount halive hvalid
    · rw [State.modify_vms_ne s hd] at halive hvalid ⊢
      exact ⟨halive, hvalid, by simp [hd]⟩
  refine ⟨fun d hd => ?_, fun d hd => ?_, fun d halive hvalid => ?_, fun hs d halive hvalid => ?_⟩
  · by_cases hdv : d = v
    · exact hdv ▸ hv
    · rw [State.modify_vms_ne s hdv] at hd
      exact h.present d hd
  · have hmem : d ∈ s.refs + hand + Multiset.replicate b v :=
      htotal ▸ Multiset.mem_add.mpr (.inl hd)
    rcases Multiset.mem_add.mp hmem with hmem | hmem
    · exact h.known d hmem
    · exact Multiset.eq_of_mem_replicate hmem ▸ hv
  · obtain ⟨ha, hv', hn⟩ := hcase d halive hvalid
    have hle := h.enough d ha hv'
    have heq := hper d
    omega
  · obtain ⟨ha, hv', hn⟩ := hcase d halive hvalid
    have hle := h.right hs d ha hv'
    have heq := hper d
    omega

/-- Addresses move between a VM and the operation that is going on. -/
theorem move (h : Balanced strict hand s) (hv : v < s.vmCount) {g : Vm → Vm}
    (hrefs : (g (s.vms v)).refs v + hand' = (s.vms v).refs v + hand)
    (hcount : (g (s.vms v)).alive = true → (g (s.vms v)).valid = true →
      (s.vms v).alive = true ∧ (s.vms v).valid = true ∧ (g (s.vms v)).nsenders = (s.vms v).nsenders) :
    Balanced strict hand' (s.modify v g) :=
  h.modify hv 0 0 (by simpa using hrefs) hcount

/-- Nothing that counts is touched. -/
theorem keep (h : Balanced strict hand s) {g : Vm → Vm}
    (hrefs : (g (s.vms v)).refs v = (s.vms v).refs v) (halive : (g (s.vms v)).alive = (s.vms v).alive)
    (hvalid : (g (s.vms v)).valid = (s.vms v).valid)
    (hcount : (g (s.vms v)).nsenders = (s.vms v).nsenders) : Balanced strict hand (s.modify v g) := by
  have hsame : ∀ d, ((s.modify v g).vms d).refs d = (s.vms d).refs d ∧
      ((s.modify v g).vms d).alive = (s.vms d).alive ∧ ((s.modify v g).vms d).valid = (s.vms d).valid ∧
        ((s.modify v g).vms d).nsenders = (s.vms d).nsenders :=
    State.modify_vms_cases (Q := fun d m => m.refs d = (s.vms d).refs d ∧ m.alive = (s.vms d).alive ∧
      m.valid = (s.vms d).valid ∧ m.nsenders = (s.vms d).nsenders) g
      ⟨hrefs, halive, hvalid, hcount⟩ fun _ _ => ⟨rfl, rfl, rfl, rfl⟩
  have htotal : (s.modify v g).refs = s.refs := total_congr Vm.refs s.vms fun d _ => (hsame d).1
  constructor
  · intro d hd
    rw [(hsame d).2.1, (hsame d).2.2.1] at hd
    exact h.present d hd
  · rw [htotal]
    exact h.known
  · intro d ha hv
    rw [htotal, (hsame d).2.2.2]
    exact h.enough d ((hsame d).2.1 ▸ ha) ((hsame d).2.2.1 ▸ hv)
  · intro hs d ha hv
    rw [htotal, (hsame d).2.2.2]
    exact h.right hs d ((hsame d).2.1 ▸ ha) ((hsame d).2.2.1 ▸ hv)

theorem tick (h : Balanced strict hand s) : Balanced strict hand s.tick :=
  ⟨h.present, h.known, h.enough, h.right⟩

theorem record (h : Balanced strict hand s) (hist : History) : Balanced strict hand (s.record hist) :=
  ⟨h.present, h.known, h.enough, h.right⟩

theorem post {x : Handler} (h : Balanced strict (hand + x.addresses) s) (hv : v < s.vmCount)
    (hx : x.attaching? = none) : Balanced strict hand (s.post v x) := by
  refine h.move hv ?_ fun halive hvalid => ⟨halive, hvalid, rfl⟩
  simp only [Vm.refs, Vm.liveAddresses, Vm.attaching, List.flatMap_append, List.filterMap_append,
    List.filterMap_cons_none hx, List.flatMap_singleton, List.filterMap_nil, List.append_nil, ← Multiset.coe_add]
  abel

/-- An address of a VM that is gone is not counted. -/
theorem uncounted (h : Balanced strict hand s) {d : VmId} (hd : d < s.vmCount)
    (hdead : (s.vms d).alive ≠ true) (a b : Nat)
    (hhand : hand' + Multiset.replicate a d = hand + Multiset.replicate b d) :
    Balanced strict hand' s := by
  have hself : s.modify d (fun m => m) = s := by simp [State.modify]
  rw [← hself]
  refine h.modify hd a b ?_ fun halive => absurd halive hdead
  rw [add_assoc, hhand, add_assoc]

theorem copyAddress (h : Balanced strict hand s) {d : VmId} (hd : d < s.vmCount) :
    Balanced strict (hand + {d}) (s.copyAddress d) := by
  rw [State.copyAddress]
  split
  · refine h.modify hd 0 1 ?_ fun halive hvalid => ⟨halive, hvalid, rfl⟩
    simp only [Multiset.replicate_zero, add_zero, Multiset.replicate_one]
    rw [← add_assoc]
    rfl
  · next hdead => exact h.uncounted hd hdead 0 1 (by simp)

theorem dropAddress {d : VmId} (h : Balanced strict (hand + {d}) s) : Balanced strict hand (s.dropAddress d) := by
  have hmem : d ∈ s.refs + (hand + {d}) := by simp
  have hd := h.known d hmem
  rw [State.dropAddress]
  split
  · have hdrop : Balanced strict hand (s.modify d fun m => { m with nsenders := m.nsenders - 1 }) := by
      refine h.modify hd 1 0 ?_ fun halive hvalid => ⟨halive, hvalid, ?_⟩
      · simp only [Multiset.replicate_zero, add_zero, Multiset.replicate_one]
        rw [← add_assoc]
        rfl
      · have hle := h.enough d halive hvalid
        have hpos := Multiset.count_pos.mpr hmem
        change (s.vms d).nsenders - 1 + 1 = _
        omega
    dsimp only
    split
    · exact post (x := .noSenders) (by simpa [Handler.addresses] using hdrop) hd rfl
    · exact hdrop
  · next hdead => exact h.uncounted hd hdead 1 0 (by simp)

theorem copyAddresses (h : Balanced strict hand s) {ds : List VmId} (hds : ∀ d ∈ ds, d < s.vmCount) :
    Balanced strict (hand + ds) (s.copyAddresses ds) := by
  induction ds generalizing s hand with
  | nil => simpa [State.copyAddresses] using h
  | cons d ds ih =>
      have hcopy := h.copyAddress (hds d List.mem_cons_self)
      have hcount : (s.copyAddress d).vmCount = s.vmCount := (State.Recount.copyAddress s d).vmCount
      have hrest := ih hcopy fun d' hd' => hcount ▸ hds d' (List.mem_cons_of_mem _ hd')
      rw [add_assoc, Multiset.singleton_add, Multiset.cons_coe] at hrest
      exact hrest

theorem dropAddresses {ds : List VmId} (h : Balanced strict (hand + ds) s) :
    Balanced strict hand (s.dropAddresses ds) := by
  induction ds generalizing s with
  | nil => simpa [State.dropAddresses] using h
  | cons d ds ih =>
      have hnext : Balanced strict (hand + ds + {d}) s := by
        rwa [add_assoc, add_comm (ds : Multiset VmId), Multiset.singleton_add, Multiset.cons_coe]
      exact ih hnext.dropAddress

theorem adoptAddresses {ds : List VmId} (h : Balanced strict (hand + ds) s) (hv : v < s.vmCount) :
    Balanced strict hand (s.adoptAddresses v ds) := by
  induction ds generalizing s with
  | nil => simpa [State.adoptAddresses] using h
  | cons d ds ih =>
      refine ih (Balanced.tick (h.move hv ?_ fun halive hvalid => ⟨halive, hvalid, rfl⟩)) hv
      rw [← Multiset.cons_coe]
      simp only [Vm.refs, Vm.liveAddresses, Vm.attaching, List.map_cons, ← Multiset.cons_coe,
        ← Multiset.singleton_add]
      abel

theorem post_resume (h : Balanced strict hand s) (v : VmId) (fiber : Option FiberId)
    (error : Option WakeError) : Balanced strict hand (s.post v (.resume fiber error)) := by
  refine h.keep ?_ rfl rfl rfl
  simp [Vm.refs, Vm.liveAddresses, Vm.attaching, Handler.addresses, Handler.attaching?,
    List.filterMap_cons]

theorem fiberResume (h : Balanced strict hand s) {fiber : Option FiberId} {error : Option WakeError}
    (hresume : s.fiberResume v fiber error = .ok s') : Balanced strict hand s' := by
  rcases State.fiberResume_cases hresume with ⟨-, rfl⟩ | ⟨-, f, hist, -, -, rfl⟩
  · exact h
  · exact (h.keep rfl rfl rfl rfl).record hist

theorem wakeReceiver (h : Balanced strict hand s) {f : FiberId} {error : Option WakeError}
    (hresume : (s.modify v fun m => { m with recvFiber := none }).fiberResume v (some f) error = .ok s') :
    Balanced strict hand s' := by
  have hreset : Balanced strict hand (s.modify v fun m => { m with recvFiber := none }) :=
    h.keep rfl rfl rfl rfl
  exact hreset.fiberResume hresume

theorem yield (h : Balanced strict hand s) (v : VmId) : Balanced strict hand (s.yield v) := by
  have hpark : Balanced strict hand (s.modify v fun m => { m with current := none, cont := none }) :=
    h.keep rfl rfl rfl rfl
  rw [State.yield]
  split
  · exact hpark
  · exact hpark.post_resume _ _ _

theorem destroySender {e : SenderState} (h : Balanced strict (hand + e.msg.addresses) s)
    (hdestroy : s.destroySender e = .ok s') : Balanced strict hand s' := by
  rw [State.destroySender] at hdestroy
  split at hdestroy
  · split at hdestroy
    · cases hdestroy
    · cases hdestroy
      exact (h.post_resume _ _ _).dropAddresses
  · cases hdestroy
    exact h.dropAddresses

/-- The queue of VM `v` is destroyed, entry by entry. -/
theorem clearIncoming (h : Balanced strict hand s) (hv : v < s.vmCount) {es : List SenderState}
    (hincoming : (s.vms v).incoming = es) (hclear : s.clearIncoming v es = .ok s') :
    Balanced strict hand s' := by
  induction es generalizing s with
  | nil =>
      rw [State.clearIncoming, Except.ok.injEq] at hclear
      exact hclear ▸ h
  | cons e es ih =>
      rw [State.clearIncoming] at hclear
      have htake : Balanced strict (hand + e.msg.addresses)
          (s.modify v fun m => { m with incoming := es }) := by
        refine h.move hv ?_ fun halive hvalid => ⟨halive, hvalid, rfl⟩
        simp only [Vm.refs, Vm.liveAddresses, Vm.attaching, hincoming, List.flatMap_cons,
          ← Multiset.coe_add]
        abel
      cases hd : (s.modify v fun m => { m with incoming := es }).destroySender
          { e with wakeOnDestruct := true } with
      | error fault =>
          rw [hd] at hclear
          cases hclear
      | ok s₁ =>
          rw [hd] at hclear
          have hqueue := State.incoming_destroySender hd v
          refine ih (destroySender (e := { e with wakeOnDestruct := true }) htake hd) ?_ ?_ hclear
          · rw [(State.Frame.destroySender hd).vmCount]
            exact hv
          · rw [hqueue, State.modify_vms_self]

theorem chanSend (h : Balanced strict hand s) {d : VmId} (hd : d < s.vmCount) {msg : Value}
    (hmsg : ∀ a ∈ msg.addresses, a < s.vmCount) (f : FiberId) (handle : Nat) :
    Balanced strict hand (s.chanSend v f handle d msg) := by
  have hcopy := h.copyAddresses hmsg
  have hcount := (State.Recount.copyAddresses s msg.addresses).vmCount
  have hswitch : ∀ t : State, Balanced strict (hand + msg.addresses) t →
      Balanced strict (hand + msg.addresses)
        (t.modify v (Vm.switch · f (.send handle d) (.sending s.fresh d))) :=
    fun t ht => ht.keep rfl rfl rfl rfl
  refine Balanced.yield (post (x := .deliver (v, f) msg s.fresh) ?_ ?_ rfl) v
  · exact hswitch _ (hcopy.record _).tick
  · exact hcount ▸ hd

theorem receiveQueuedEntry (h : Balanced strict hand s) (hv : v < s.vmCount) {e : SenderState}
    {es : List SenderState} (hincoming : (s.vms v).incoming = e :: es) :
    Balanced strict hand (s.receiveQueuedEntry v e es) := by
  have hdequeue : Balanced strict (hand + e.msg.addresses)
      (s.modify v fun m => { m with incoming := es }) := by
    refine h.move hv ?_ fun halive hvalid => ⟨halive, hvalid, rfl⟩
    simp only [Vm.refs, Vm.liveAddresses, Vm.attaching, hincoming, List.flatMap_cons,
      ← Multiset.coe_add]
    abel
  rw [State.receiveQueuedEntry]
  dsimp only
  split
  · exact hdequeue.adoptAddresses hv
  · exact ((hdequeue.post_resume _ _ _).record _).adoptAddresses hv

theorem waitForMessage (h : Balanced strict hand s) (f : FiberId) :
    Balanced strict hand (s.waitForMessage v f) := by
  have hwait : Balanced strict hand (s.modify v fun m =>
      { (m.switch f .receive (.receiving s.fresh)).enqueueServices with recvFiber := some f }) := by
    refine h.keep ?_ rfl rfl rfl
    have hlength : ((s.vms v).switch f .receive (.receiving s.fresh)).enqueueServices.services.length =
        (s.vms v).services.length := List.length_map _
    simp only [Vm.refs, hlength]
    rfl
  exact hwait.tick.yield v

theorem chanReceive (h : Balanced strict hand s) (hv : v < s.vmCount) (f : FiberId) :
    Balanced strict hand (s.chanReceive v f) := by
  rw [State.chanReceive]
  split
  · exact h
  · split
    · exact h
    · split
      · next hincoming => exact h.receiveQueuedEntry hv hincoming
      · split
        · exact h
        · exact h.waitForMessage f

theorem inboxClose (h : Balanced strict hand s) (hv : v < s.vmCount)
    (hclose : s.inboxClose v = .ok s') : Balanced strict hand s' := by
  rw [State.inboxClose] at hclose
  dsimp only at hclose
  have hshut : ∀ t : State, Balanced strict hand t →
      Balanced strict hand (t.modify v fun m => { m with isOpen := false }) :=
    fun t ht => ht.keep rfl rfl rfl rfl
  split at hclose
  · cases hclose
    exact h
  · split at hclose
    · exact (hshut s h).clearIncoming hv (by simp) hclose
    · next g _ =>
        have htell : Balanced strict hand ((s.modify v fun m => { m with recvFiber := none }).post v
            (.resume (some g) (some .channelClosed))) :=
          Balanced.post_resume (h.keep rfl rfl rfl rfl) _ _ _
        refine (hshut _ htell).clearIncoming hv ?_ hclose
        simp [State.post_vms]

theorem inboxGc (h : Balanced strict hand s) (hv : v < s.vmCount)
    (hclose : s.inboxGc v = .ok s') : Balanced strict hand s' := by
  rw [State.inboxGc] at hclose
  split at hclose
  · cases hclose
    exact h
  · exact Balanced.clearIncoming (h.keep rfl rfl rfl rfl) hv (by simp) hclose

theorem fiberInterrupt (h : Balanced strict hand s) {g : FiberId}
    (hinterrupt : s.fiberInterrupt v g = .ok s') : Balanced strict hand s' := by
  have hclear : ∀ t : State, Balanced strict hand t →
      Balanced strict hand (t.modify v fun m => m.setFiber g fun g => { g with interrupter := .none }) :=
    fun t ht => ht.keep rfl rfl rfl rfl
  rw [State.fiberInterrupt] at hinterrupt
  dsimp only at hinterrupt
  split at hinterrupt
  · cases hinterrupt
    exact h
  · split at hinterrupt
    · cases hinterrupt
    · split at hinterrupt
      · next d _ _ halive =>
          cases hinterrupt
          refine hclear _ (post (x := .interruptSend v g) ?_ (h.present d (.inl halive)) rfl)
          simpa [Handler.addresses] using h
      · cases hinterrupt
        exact hclear _ h
  · cases hinterrupt
    exact hclear _ (Balanced.post_resume (h.keep rfl rfl rfl rfl) _ _ _)

theorem exportAddress (h : Balanced strict hand s) (d : VmId) :
    Balanced strict hand (s.exportAddress d) := by
  rw [State.exportAddress]
  split
  · next halive =>
      have heq : (s.modify d fun m => { m with nsenders := m.nsenders + 1 }).post d (.attachService s.fresh) =
          s.modify d fun m =>
            { m with nsenders := m.nsenders + 1, strand := m.strand ++ [.attachService s.fresh] } := by
        simp [State.post, State.modify]
      rw [heq]
      refine Balanced.tick (h.modify (h.present d (.inl halive)) 0 1 ?_
        fun halive hvalid => ⟨halive, hvalid, rfl⟩)
      refine Vm.refs_count ?_ ?_ hand
      · simp [Vm.liveAddresses, Handler.addresses]
      · simp [Vm.attaching, Handler.attaching?, add_assoc]
  · exact h

theorem exportInbox (h : Balanced strict hand s) (hv : v < s.vmCount) :
    Balanced strict hand (s.exportInbox v) := by
  refine Balanced.tick (h.modify hv 0 1 ?_ fun halive hvalid => ⟨halive, hvalid, rfl⟩)
  refine Vm.refs_count ?_ ?_ hand
  · rfl
  · simp only [List.length_append, List.length_singleton, Vm.attaching]
    omega

/-- A new VM, with one address of it at hand. -/
theorem addVm (h : Balanced strict hand s) :
    Balanced strict (hand + {s.vmCount}) (s.addVm (Vm.fresh 1)) := by
  have hrefs : (s.addVm (Vm.fresh 1)).refs = s.refs := by
    refine total_succ Vm.refs s.vms ?_
    simp [Vm.refs, Vm.liveAddresses, Vm.fresh, Vm.attaching]
  have hfresh : (s.refs + hand).count s.vmCount = 0 :=
    Multiset.count_eq_zero.mpr fun hmem => absurd (h.known _ hmem) (lt_irrefl _)
  have hself : (s.refs + (hand + {s.vmCount})).count s.vmCount = 1 := by
    rw [← add_assoc, Multiset.count_add, hfresh, Multiset.count_singleton_self]
  have hother : ∀ d, d ≠ s.vmCount → (s.refs + (hand + {s.vmCount})).count d = (s.refs + hand).count d := by
    intro d hd
    rw [← add_assoc, Multiset.count_add, Multiset.count_singleton, if_neg hd, add_zero]
  constructor
  · intro d hd
    by_cases hdv : d = s.vmCount
    · exact hdv ▸ Nat.lt_succ_self _
    · rw [State.addVm_vms_ne s hdv] at hd
      exact (h.present d hd).trans (Nat.lt_succ_self _)
  · intro d hd
    rw [hrefs, ← add_assoc] at hd
    rcases Multiset.mem_add.mp hd with hd | hd
    · exact (h.known d hd).trans (Nat.lt_succ_self _)
    · exact Multiset.mem_singleton.mp hd ▸ Nat.lt_succ_self _
  · intro d halive hvalid
    rw [hrefs]
    by_cases hdv : d = s.vmCount
    · subst hdv
      rw [hself, State.addVm_vms_self]
      exact le_rfl
    · rw [State.addVm_vms_ne s hdv] at halive hvalid ⊢
      rw [hother d hdv]
      exact h.enough d halive hvalid
  · intro hs d halive hvalid
    rw [hrefs]
    by_cases hdv : d = s.vmCount
    · subst hdv
      rw [hself, State.addVm_vms_self]
      rfl
    · rw [State.addVm_vms_ne s hdv] at halive hvalid ⊢
      rw [hother d hdv]
      exact h.right hs d halive hvalid

theorem vmClose (h : Balanced strict hand s) (hv : v < s.vmCount) (hclose : s.vmClose v = .ok s') :
    Balanced strict hand s' := by
  have hrelease : Balanced strict hand ((s.modify v fun m => { m with addresses := [] }).dropAddresses
      ((s.vms v).addresses.map Prod.snd)) := by
    refine dropAddresses (h.move hv ?_ fun halive hvalid => ⟨halive, hvalid, rfl⟩)
    simp only [Vm.refs, Vm.liveAddresses, Vm.attaching, List.map_nil, Multiset.coe_nil, zero_add]
    abel
  have hrecount := State.Recount.dropAddresses (s.modify v fun m => { m with addresses := [] })
    ((s.vms v).addresses.map Prod.snd)
  have hincoming := hrecount.incoming v
  have hcount := hrecount.vmCount
  rw [State.modify_vms_self] at hincoming
  rw [State.vmClose] at hclose
  generalize State.dropAddresses (s.modify v fun m => { m with addresses := [] })
    ((s.vms v).addresses.map Prod.snd) = s₁ at hclose hrelease hincoming hcount
  have hv₁ : v < s₁.vmCount := hcount ▸ hv
  have hinvalid : Balanced strict hand (s₁.modify v Vm.invalidated) :=
    hrelease.move hv₁ rfl fun _ hvalid => by cases hvalid
  cases hclear : (s₁.modify v Vm.invalidated).clearIncoming v (s.vms v).incoming with
  | error fault =>
      rw [hclear] at hclose
      cases hclose
  | ok s₂ =>
      rw [hclear] at hclose
      cases hclose
      have hcleared := hinvalid.clearIncoming hv₁ (by simpa [Vm.invalidated] using hincoming) hclear
      have hvalid : (s₂.vms v).valid = false := State.Quiet.invalidated_valid hclear
      have hv₂ : v < s₂.vmCount := (State.Frame.clearIncoming hclear).vmCount ▸ hv₁
      -- the services go without being counted down, and so does the VM
      refine Balanced.yield (hcleared.modify hv₂ (s₂.vms v).services.length 0 ?_ fun _ htrue => ?_) v
      · refine Vm.refs_count ?_ ?_ hand
        · rfl
        · simp only [List.length_nil, Vm.attaching]
          omega
      · exact absurd (htrue.symm.trans hvalid) (by simp)

theorem closeUnimported (h : Balanced strict hand s) (hv : v < s.vmCount) {f : FiberId}
    (hclose : s.closeUnimported v f = .ok s') : Balanced strict hand s' := by
  rw [State.closeUnimported] at hclose
  split at hclose
  · exact Balanced.clearIncoming (h.keep rfl rfl rfl rfl) hv (by simp) hclose
  · cases hclose
    exact h

theorem resumeJoiner (h : Balanced strict hand s) {joiner : Option FiberId}
    (hresume : s.resumeJoiner v joiner = .ok s') : Balanced strict hand s' := by
  cases joiner with
  | none =>
      cases hresume
      exact h.yield v
  | some g =>
      rw [State.resumeJoiner] at hresume
      split at hresume
      · cases hresume
        exact h.keep rfl rfl rfl rfl
      · cases hresume

theorem fiberEpilogue (h : Balanced strict hand s) (hv : v < s.vmCount) {f : FiberId}
    {joiner : Option FiberId} (hend : s.fiberEpilogue v f joiner = .ok s') : Balanced strict hand s' := by
  have hfinish : Balanced strict hand (s.modify v fun m =>
      m.setFiber f fun g => { g with suspension := .finished }) := h.keep rfl rfl rfl rfl
  rw [State.fiberEpilogue] at hend
  cases hclose : (s.modify v fun m =>
      m.setFiber f fun g => { g with suspension := .finished }).closeUnimported v f with
  | error fault =>
      rw [hclose] at hend
      cases hend
  | ok s₁ =>
      rw [hclose] at hend
      exact (hfinish.closeUnimported hv hclose).resumeJoiner hend

theorem deliver {p : Party} {msg : Value} {n : Nat} (h : Balanced strict (hand + msg.addresses) s)
    (hv : v < s.vmCount) (hdeliver : s.deliver v p msg n = .ok s') : Balanced strict hand s' := by
  rw [State.deliver] at hdeliver
  split at hdeliver
  · exact destroySender (e := ⟨some p.1, p.2, msg, true, n⟩) h hdeliver
  · split at hdeliver
    · cases hdeliver
      refine h.move hv ?_ fun halive hvalid => ⟨halive, hvalid, rfl⟩
      simp only [Vm.refs, Vm.liveAddresses, Vm.attaching, List.flatMap_append, List.flatMap_singleton,
        ← Multiset.coe_add]
      abel
    · next f _ =>
        rw [State.handOver] at hdeliver
        cases hresume : (s.modify v fun m => { m with recvFiber := none }).fiberResume v (some f) none with
        | error fault =>
            rw [hresume] at hdeliver
            cases hdeliver
        | ok s₁ =>
            rw [hresume] at hdeliver
            cases hdeliver
            have hresumed := h.wakeReceiver hresume
            have hcont : Balanced strict (hand + msg.addresses)
                (s₁.modify v fun m => { m with cont := some p }) := hresumed.keep rfl rfl rfl rfl
            refine (hcont.record _).adoptAddresses ?_
            rcases State.fiberResume_cases hresume with ⟨-, rfl⟩ | ⟨-, g, hist, -, -, rfl⟩
            · exact hv
            · exact hv

theorem noSenders (h : Balanced strict hand s) (hrun : s.noSenders v = .ok s') : Balanced strict hand s' := by
  rw [State.noSenders] at hrun
  split at hrun
  · cases hrun
    exact h
  · split at hrun
    · cases hrun
      exact h
    · exact h.wakeReceiver hrun

theorem forget {x : Multiset VmId} (h : Balanced strict (hand + x) s) (hstrict : ¬ strict) :
    Balanced strict hand s := by
  have hle : s.refs + hand ≤ s.refs + (hand + x) := by
    rw [← add_assoc]
    exact Multiset.le_add_right _ _
  exact ⟨h.present, fun d hd => h.known d (Multiset.mem_of_le hle hd),
    fun d halive hvalid => (Multiset.count_le_of_le d hle).trans (h.enough d halive hvalid),
    fun hs => absurd hs hstrict⟩

end Balanced

theorem flatMap_eraseIdx {α β : Type} (f : α → List β) {q : List α} {i : Nat} {e : α} (h : q[i]? = some e) :
    ((q.eraseIdx i).flatMap f : Multiset β) + (f e : Multiset β) = (q.flatMap f : Multiset β) := by
  induction q generalizing i with
  | nil => cases h
  | cons x q ih =>
      cases i with
      | zero =>
          cases h
          rw [List.eraseIdx_zero, List.tail_cons, List.flatMap_cons, ← Multiset.coe_add, add_comm]
      | succ i =>
          rw [List.getElem?_cons_succ] at h
          rw [List.eraseIdx_cons_succ, List.flatMap_cons, List.flatMap_cons, ← Multiset.coe_add,
            ← Multiset.coe_add, add_assoc, ih h]

theorem length_filter_id {l : List Service} {k : Nat} (hnodup : (l.map Service.id).Nodup)
    (hk : k ∈ l.map Service.id) : (l.filter fun x => x.id != k).length + 1 = l.length := by
  induction l with
  | nil => cases hk
  | cons x l ih =>
      obtain ⟨hnew, hrest⟩ := List.nodup_cons.mp hnodup
      by_cases hx : x.id = k
      · have hall : l.filter (fun x => x.id != k) = l := by
          refine List.filter_eq_self.mpr fun y hy => ?_
          have hne : y.id ≠ k := fun heq => hnew (hx ▸ heq ▸ List.mem_map_of_mem hy)
          simpa using hne
        rw [List.filter_cons_of_neg (by simp [hx]), hall, List.length_cons]
      · have hk' : k ∈ l.map Service.id := (List.mem_cons.mp hk).resolve_left (Ne.symm hx)
        rw [List.filter_cons_of_pos (by simp [hx]), List.length_cons, List.length_cons, ih hrest hk']

theorem Member.fill_addresses {m : Member} {fds : List Int} {r : Leaf × List Int}
    (h : m.fill fds = some r) : r.1.toValue.addresses = [] := by
  cases m with
  | boolean _ | number _ | string _ =>
      cases h
      rfl
  | fileDescriptor | actorAddress =>
      cases fds with
      | nil => cases h
      | cons fd fds =>
          cases h
          rfl

theorem fillEntries_addresses {es : List (Bytes × Member)} {fds : List Int} {ls : List (Bytes × Leaf)}
    (h : fillEntries es fds = some ls) : ∀ e ∈ ls, e.2.toValue.addresses = [] := by
  induction es generalizing fds ls with
  | nil =>
      cases h
      simp
  | cons e es ih =>
      rw [fillEntries] at h
      obtain ⟨r, hr, hrest⟩ := Option.bind_eq_some_iff.mp h
      obtain ⟨ls', hls', rfl⟩ := Option.map_eq_some_iff.mp hrest
      intro e' he'
      rcases List.mem_cons.mp he' with rfl | he'
      · exact Member.fill_addresses hr
      · exact ih hls' e' he'

theorem mem_of_mem_firstEntries {es : List (Bytes × Leaf)} {e : Bytes × Leaf} (he : e ∈ firstEntries es) :
    e ∈ es := by
  have hfold : ∀ (es acc : List (Bytes × Leaf)), e ∈ es.foldl (fun m e => emplace m e.1 e.2) acc →
      e ∈ acc ∨ e ∈ es := by
    intro es
    induction es with
    | nil => exact fun acc h => .inl h
    | cons x es ih =>
        intro acc h
        rcases ih _ h with hacc | hes
        · dsimp only at hacc
          rw [emplace] at hacc
          split at hacc
          · exact .inl hacc
          · rcases List.mem_cons.mp ((insertKey_perm acc x.1 x.2).mem_iff.mp hacc) with rfl | hacc
            · exact .inr List.mem_cons_self
            · exact .inl hacc
        · exact .inr (List.mem_cons_of_mem _ hes)
  simpa using hfold es [] he

theorem Contents.fill_addresses {cts : Contents} {fds : List Int} {m : Message}
    (h : cts.fill fds = some m) : m.queued.addresses = [] := by
  cases cts with
  | flat l =>
      rw [Contents.fill] at h
      split at h
      · cases h
      · obtain ⟨r, hr, rfl⟩ := Option.map_eq_some_iff.mp h
        exact Member.fill_addresses hr
  | table es =>
      obtain ⟨ls, hls, rfl⟩ := Option.map_eq_some_iff.mp h
      have hnone : ∀ e ∈ firstEntries ls, e.2.toValue.addresses = [] := fun e he =>
        fillEntries_addresses hls e (mem_of_mem_firstEntries he)
      rw [Message.queued, leafObject, Value.addresses]
      generalize firstEntries ls = kept at hnone
      induction kept with
      | nil => rfl
      | cons e kept ih =>
          rw [List.map_cons, addressesObject, hnone e List.mem_cons_self, List.nil_append]
          exact ih fun e' he' => hnone e' (List.mem_cons_of_mem _ he')

/-- A message from another process carries no in-process address. -/
theorem queuedDelivery_addresses {c : Config} {r : Received c} (hshort : r.tooShort = false) {msg : Value}
    {closed : List Int} (h : queuedDelivery r = .delivered msg closed) : msg.addresses = [] := by
  have hspec := receiveQueued_spec r
  rw [receiveQueued, hshort, if_neg (by simp), h] at hspec
  cases hread : r.read with
  | none =>
      rw [hread] at hspec
      obtain ⟨closed', hrejected, -⟩ := hspec
      cases hrejected
  | some m =>
      rw [hread] at hspec
      obtain ⟨closed', hdelivered, -⟩ := hspec
      cases hdelivered
      rw [Received.read, hshort, if_neg (by simp)] at hread
      obtain ⟨cts, -, hfill⟩ := Option.bind_eq_some_iff.mp hread
      exact Contents.fill_addresses hfill

/-- The entry that is moved to the place of entry `i` when that is erased. -/
def successor (q : List SenderState) (i : Nat) : Option SenderState :=
  if i < q.length / 2 then (if i = 0 then none else q[i - 1]?) else q[i + 1]?

/-- Entry `i` is an address, and another address is assigned to it. -/
def overwritesAddress (q : List SenderState) (i : Nat) : Bool :=
  ((q[i]?).any fun e => e.msg matches .address (some _)) &&
    (successor q i).any fun e => e.msg matches .address _

theorem erasedAddresses_eq {q : List SenderState} {i : Nat} {e : SenderState} (he : q[i]? = some e) :
    State.erasedAddresses q i = if overwritesAddress q i then [] else e.msg.addresses := by
  obtain ⟨vm, fiber, msg, wake, id⟩ := e
  have hfold : (if i < q.length / 2 then (if i = 0 then none else q[i - 1]?) else q[i + 1]?) =
      successor q i := rfl
  simp only [State.erasedAddresses, overwritesAddress, he, Option.any_some, hfold]
  cases successor q i with
  | none => simp
  | some e' =>
      obtain ⟨vm', fiber', msg', wake', id'⟩ := e'
      cases msg with
      | address dest => cases dest <;> cases msg' <;> simp [Value.addresses]
      | _ => simp

namespace Balanced

theorem interruptSend (h : Balanced strict hand s) (hv : v < s.vmCount) {u : VmId} {f : FiberId}
    (hstrict : strict → ∀ i, (s.vms v).incoming.findIdx? (fun e => e.vm == some u && e.fiber == f) = some i →
      overwritesAddress (s.vms v).incoming i = false) :
    Balanced strict hand (s.interruptSend v u f) := by
  rw [State.interruptSend]
  dsimp only
  split
  · exact h
  · next i hi =>
      obtain ⟨hlt, -⟩ := List.findIdx?_eq_some_iff_getElem.mp hi
      have he := List.getElem?_eq_getElem hlt
      generalize (s.vms v).incoming[i] = e at he
      have htake : Balanced strict (hand + e.msg.addresses)
          (s.modify v fun m => { m with incoming := (s.vms v).incoming.eraseIdx i }) := by
        refine h.move hv ?_ fun halive hvalid => ⟨halive, hvalid, rfl⟩
        have hqueue := flatMap_eraseIdx (fun e : SenderState => e.msg.addresses) he
        simp only [Vm.refs, Vm.liveAddresses, Vm.attaching]
        rw [← hqueue]
        abel
      refine Balanced.post_resume ?_ _ _ _
      rw [erasedAddresses_eq he]
      by_cases hover : overwritesAddress (s.vms v).incoming i = true
      · have hno : ¬ strict := fun hs => by simp [hstrict hs i hi] at hover
        rw [if_pos hover]
        exact htake.forget hno
      · rw [if_neg hover]
        exact htake.dropAddresses

/-- The handler that attaches a service runs. -/
theorem attachService (h : Balanced strict hand s) (hv : v < s.vmCount) {id : Nat} {xs : List Handler}
    (hstrand : (s.vms v).strand = .attachService id :: xs) :
    Balanced strict hand ((s.modify v fun m => { m with strand := xs }).attachService v id) := by
  have heq : (s.modify v fun m => { m with strand := xs }).attachService v id =
      s.modify v fun m =>
        if m.valid = false then { m with strand := xs }
        else if m.recvFiber.isSome then
          { m with strand := xs, services := m.services ++ [⟨id, true⟩], waits := m.waits ++ [id] }
        else { m with strand := xs, services := m.services ++ [⟨id, false⟩] } := by
    simp only [State.attachService, State.modify, Function.update_self, Function.update_idem]
  have hlive : ∀ m : Vm, m.addresses = (s.vms v).addresses → m.incoming = (s.vms v).incoming →
      m.strand = xs → m.liveAddresses = (s.vms v).liveAddresses := by
    intro m haddresses hincoming hrest
    simp [Vm.liveAddresses, haddresses, hincoming, hrest, hstrand, Handler.addresses]
  have hattaching : (s.vms v).attaching.length = (xs.filterMap Handler.attaching?).length + 1 := by
    rw [Vm.attaching, hstrand]
    rfl
  rw [heq]
  cases hvalid : (s.vms v).valid with
  | false =>
      refine h.modify hv 1 0 ?_ fun _ htrue => ?_
      · rw [hvalid, if_pos rfl]
        refine Vm.refs_count ?_ ?_ hand
        · exact hlive _ rfl rfl rfl
        · rw [hattaching]
          simp only [Vm.attaching]
          omega
      · rw [hvalid, if_pos rfl] at htrue
        cases htrue
  | true =>
      refine h.modify hv 0 0 ?_ fun halive _ => ⟨?_, hvalid, ?_⟩
      · rw [hvalid, if_neg (by simp)]
        split
        · refine Vm.refs_count ?_ ?_ hand
          · exact hlive _ rfl rfl rfl
          · rw [hattaching]
            simp only [Vm.attaching, List.length_append, List.length_singleton]
            omega
        · refine Vm.refs_count ?_ ?_ hand
          · exact hlive _ rfl rfl rfl
          · rw [hattaching]
            simp only [Vm.attaching, List.length_append, List.length_singleton]
            omega
      · rw [hvalid, if_neg (by simp)] at halive
        split at halive <;> exact halive
      · rw [hvalid, if_neg (by simp)]
        split <;> rfl

theorem nsenders_pos (h : Balanced strict hand s) (halive : (s.vms v).alive = true)
    (hvalid : (s.vms v).valid = true) (hservices : 0 < (s.vms v).services.length) :
    0 < (s.vms v).nsenders := by
  have hv := h.present v (.inl halive)
  have hmem : v ∈ s.refs + hand := by
    refine Multiset.mem_add.mpr (.inl (Multiset.mem_sum.mpr ⟨v, Finset.mem_range.mpr hv, ?_⟩))
    refine Multiset.mem_add.mpr (.inr (Multiset.mem_replicate.mpr ⟨?_, rfl⟩))
    omega
  exact (Multiset.count_pos.mpr hmem).trans_le (h.enough v halive hvalid)

/-- One of the services is removed and counted down. -/
theorem removeService (h : Balanced strict hand s) (hv : v < s.vmCount) {k : Nat}
    (hnodup : (s.vms v).serviceIds.Nodup) (hk : k ∈ (s.vms v).serviceIds) :
    Balanced strict hand (s.removeService v k) := by
  have hlength := length_filter_id hnodup hk
  refine h.modify hv 1 0 ?_ fun halive hvalid => ⟨halive, hvalid, ?_⟩
  · refine Vm.refs_count ?_ ?_ hand
    · rfl
    · simp only [Vm.attaching]
      omega
  · have hpos := h.nsenders_pos halive hvalid (by omega)
    change (s.vms v).nsenders - 1 + 1 = _
    omega

theorem loseService (h : Balanced strict hand s) (hv : v < s.vmCount) {k : Nat}
    (hnodup : (s.vms v).serviceIds.Nodup) (hk : k ∈ (s.vms v).serviceIds)
    (hlose : s.loseService v k = .ok s') : Balanced strict hand s' := by
  have hremove := h.removeService hv hnodup hk
  rw [State.loseService] at hlose
  split at hlose
  · cases hlose
    exact hremove
  · split at hlose
    · exact hremove.wakeReceiver hlose
    · cases hlose
      exact hremove

theorem onPacket {c : Config} (h : Balanced strict hand s) (hv : v < s.vmCount) {k : Nat}
    (hnodup : (s.vms v).serviceIds.Nodup) (hk : k ∈ (s.vms v).serviceIds) {r : Received c}
    (hpacket : s.onPacket v k r = .ok s') : Balanced strict hand s' := by
  rw [State.onPacket] at hpacket
  split at hpacket
  · exact h.loseService hv hnodup hk hpacket
  · next hshort =>
    dsimp only at hpacket
    have hidle : Balanced strict hand (s.modify v fun m => { m with
        services := m.services.map fun x => if x.id = k then { x with running := false } else x }) := by
      refine h.keep ?_ rfl rfl rfl
      simp only [Vm.refs, List.length_map]
      rfl
    have hids : ((s.modify v fun m => { m with
        services := m.services.map fun x => if x.id = k then { x with running := false } else x }).vms
          v).serviceIds = (s.vms v).serviceIds := by
      rw [State.modify_vms_self, Vm.serviceIds, Vm.serviceIds, List.map_map]
      refine List.map_congr_left fun x _ => ?_
      dsimp only [Function.comp_apply]
      split <;> rfl
    split at hpacket
    · split at hpacket
      · next hdelivered =>
          cases hpacket
          refine hidle.keep ?_ rfl rfl rfl
          have hnone := queuedDelivery_addresses (by simpa using hshort) hdelivered
          simp [Vm.refs, Vm.liveAddresses, Vm.attaching, hnone]
      · cases hpacket
        exact hidle.removeService hv (hids ▸ hnodup) (hids ▸ hk)
      · cases hpacket
    · split at hpacket
      · exact hidle.wakeReceiver hpacket
      · exact hidle.loseService hv (hids ▸ hnodup) (hids ▸ hk) hpacket
      · cases hpacket

theorem onWait {c : Config} (h : Balanced strict hand s) (hv : v < s.vmCount) {k : Nat}
    (hnodup : (s.vms v).valid = true → (s.vms v).serviceIds.Nodup) {event : WaitEvent c}
    (hwait : s.onWait v k event = .ok s') : Balanced strict hand s' := by
  have herase : Balanced strict hand (s.modify v fun m => { m with waits := m.waits.erase k }) :=
    h.keep rfl rfl rfl rfl
  rw [State.onWait.eq_def] at hwait
  dsimp only at hwait
  split at hwait
  · cases hwait
    exact herase
  · next hthere =>
      have hids : ((s.modify v fun m => { m with waits := m.waits.erase k }).vms v).serviceIds.Nodup := by
        rw [State.modify_vms_self] at hthere ⊢
        exact hnodup (by simpa using fun hno => hthere (.inr hno))
      split at hwait
      · cases hwait
      · next hk =>
          have hk := not_not.mp hk
          split at hwait
          · cases hwait
            exact herase.removeService hv hids hk
          · cases event with
            | failed => exact herase.loseService hv hids hk hwait
            | broken => exact herase.loseService hv hids hk hwait
            | again =>
                cases hwait
                exact herase.keep rfl rfl rfl rfl
            | packet r => exact herase.onPacket hv hids hk hwait

/-- The destination of a userdata is a VM that has been created. -/
theorem lt_of_mem (h : Balanced strict hand s) (hv : v < s.vmCount) {d : VmId}
    (hd : d ∈ (s.vms v).addresses.map Prod.snd) : d < s.vmCount := by
  refine h.known d (Multiset.mem_add.mpr (.inl (Multiset.mem_sum.mpr ⟨v, Finset.mem_range.mpr hv, ?_⟩)))
  simp only [Vm.refs, Vm.liveAddresses, Multiset.mem_add, Multiset.mem_coe]
  exact .inl (.inl (.inl hd))

theorem of_lookup (h : Balanced strict hand s) (hv : v < s.vmCount) {handle : Nat} {d : VmId}
    (hlookup : (s.vms v).addresses.lookup handle = some d) :
    (handle, d) ∈ (s.vms v).addresses ∧ d < s.vmCount := by
  obtain ⟨l₁, l₂, heq, -⟩ := List.lookup_eq_some_iff.mp hlookup
  have hmem : (handle, d) ∈ (s.vms v).addresses := by simp [heq]
  exact ⟨hmem, h.lt_of_mem hv (List.mem_map_of_mem hmem)⟩

theorem dropHandle (h : Balanced strict hand s) (hv : v < s.vmCount) {handle : Nat} {d : VmId}
    (hlookup : (s.vms v).addresses.lookup handle = some d) :
    Balanced strict hand
      ((s.modify v fun m => { m with addresses := m.addresses.erase (handle, d) }).dropAddress d) := by
  have hmem := (h.of_lookup hv hlookup).1
  refine dropAddress (h.move hv ?_ fun halive hvalid => ⟨halive, hvalid, rfl⟩)
  have hperm : (((s.vms v).addresses.erase (handle, d)).map Prod.snd : Multiset VmId) + {d} =
      ((s.vms v).addresses.map Prod.snd : List VmId) := by
    have hcons := (List.perm_cons_erase hmem).map Prod.snd
    rw [add_comm, Multiset.singleton_add, Multiset.cons_coe]
    exact (Multiset.coe_eq_coe.mpr hcons).symm
  simp only [Vm.refs, Vm.liveAddresses, Vm.attaching, ← hperm]
  abel

end Balanced

/-- The next handler erases a queued address and forgets to count it down. -/
def forgetsAddress {c : Config} (s : State) : Action c → Bool
  | .runHandler v =>
      match (s.vms v).strand with
      | .interruptSend u f :: _ =>
          match (s.vms v).incoming.findIdx? fun e => e.vm == some u && e.fiber == f with
          | some i => overwritesAddress (s.vms v).incoming i
          | none => false
      | _ => false
  | _ => false

theorem exec_balanced {c : Config} {a : Action c} (h : Balanced strict 0 s) (hbounded : s.Bounded)
    (harmed : AllArmed False s) (hstrict : strict → forgetsAddress s a = false)
    (hexec : exec s a = .ok s') : Balanced strict 0 s' := by
  have hlt : ∀ {v}, (s.vms v).valid = true → v < s.vmCount := fun hvalid => h.present _ (.inr hvalid)
  cases a with
  | chanSend v handle msg suspendAllowed =>
      obtain ⟨f, hvalid, -, hk⟩ := exec_running hexec
      split at hk
      · cases hk
      · next d hlookup =>
          split at hk
          · next hcan =>
              split at hk
              · cases hk
                exact h
              · cases hk
                refine h.chanSend (h.of_lookup (hlt hvalid) hlookup).2 (fun a ha => ?_) f handle
                rcases hcan a ha with rfl | hmem
                · exact hlt hvalid
                · exact h.lt_of_mem (hlt hvalid) hmem
          · cases hk
  | chanReceive v suspendAllowed =>
      obtain ⟨f, hvalid, -, hk⟩ := exec_running hexec
      split at hk
      · cases hk
      · split at hk
        · cases hk
          exact h
        · cases hk
          exact h.chanReceive (hlt hvalid) f
  | inboxClose v =>
      obtain ⟨f, hvalid, -, hk⟩ := exec_running hexec
      split at hk
      · cases hk
      · exact h.inboxClose (hlt hvalid) hk
  | inboxGc v =>
      obtain ⟨f, hvalid, -, hk⟩ := exec_running hexec
      split at hk
      · exact h.inboxGc (hlt hvalid) hk
      · cases hk
  | fiberInterrupt v g =>
      obtain ⟨f, -, -, hk⟩ := exec_running hexec
      split at hk
      · cases hk
        exact h
      · exact h.fiberInterrupt hk
  | exportAddress v handle =>
      obtain ⟨f, -, -, hk⟩ := exec_running hexec
      split at hk
      · cases hk
      · cases hk
        exact h.exportAddress _
  | exportInbox v =>
      obtain ⟨f, hvalid, -, hk⟩ := exec_running hexec
      split at hk
      · cases hk
      · cases hk
        exact h.exportInbox (hlt hvalid)
  | dropHandle v handle =>
      obtain ⟨f, hvalid, -, hk⟩ := exec_running hexec
      split at hk
      · cases hk
      · next hlookup =>
          cases hk
          exact h.dropHandle (hlt hvalid) hlookup
  | spawnVm v =>
      obtain ⟨f, hvalid, -, hk⟩ := exec_running hexec
      cases hk
      exact h.addVm.adoptAddresses ((hlt hvalid).trans (Nat.lt_succ_self _))
  | importInbox v =>
      obtain ⟨f, -, -, hk⟩ := exec_running hexec
      cases hk
      exact h.keep rfl rfl rfl rfl
  | setInterruption v disabled =>
      obtain ⟨f, -, -, hk⟩ := exec_running hexec
      cases hk
      exact h.keep rfl rfl rfl rfl
  | suspendElsewhere v =>
      obtain ⟨f, -, -, hk⟩ := exec_running hexec
      cases hk
      have hpark : Balanced strict 0 (s.modify v fun m =>
          m.setFiber f fun g => { g with suspension := .elsewhere }) := h.keep rfl rfl rfl rfl
      exact hpark.yield v
  | fiberEpilogue v joiner =>
      obtain ⟨f, hvalid, -, hk⟩ := exec_running hexec
      exact h.fiberEpilogue (hlt hvalid) hk
  | vmClose v =>
      obtain ⟨f, hvalid, -, hk⟩ := exec_running hexec
      exact h.vmClose (hlt hvalid) hk
  | resumeElsewhere v f =>
      rw [exec] at hexec
      split at hexec
      · cases hexec
        exact h.keep rfl rfl rfl rfl
      · cases hexec
  | runHandler v =>
      rw [exec] at hexec
      split at hexec
      · next x xs _ hstrand =>
          have hv : v < s.vmCount := hbounded.lt fun habs => by
            rw [habs] at hstrand
            cases hstrand
          have hpop : x.attaching? = none →
              Balanced strict (0 + x.addresses) (s.modify v fun m => { m with strand := xs }) := by
            intro hx
            refine h.move hv ?_ fun halive hvalid => ⟨halive, hvalid, rfl⟩
            simp only [Vm.refs, Vm.liveAddresses, Vm.attaching, hstrand, List.flatMap_cons,
              List.filterMap_cons_none hx, ← Multiset.coe_add]
            abel
          have hpopped : x.attaching? = none → x.addresses = [] →
              Balanced strict 0 (s.modify v fun m => { m with strand := xs }) := by
            intro hx hnone
            simpa [hnone] using hpop hx
          cases x with
          | deliver p msg n => exact (hpop rfl).deliver hv hexec
          | interruptSend u f =>
              cases hexec
              refine (hpopped rfl rfl).interruptSend hv fun hs i hi => ?_
              have hkeeps := hstrict hs
              rw [State.modify_vms_self] at hi ⊢
              simpa [forgetsAddress, hstrand, hi] using hkeeps
          | resume fiber error => exact (hpopped rfl rfl).fiberResume hexec
          | noSenders => exact (hpopped rfl rfl).noSenders hexec
          | attachService k =>
              cases hexec
              exact h.attachService hv hstrand
      · cases hexec
  | onWait v k event =>
      rw [exec] at hexec
      split at hexec
      · next hwait =>
          have hv : v < s.vmCount := hbounded.lt fun habs => by
            rw [habs] at hwait
            cases hwait.2
          exact h.onWait hv (fun hvalid => (List.nodup_append.mp (harmed.armed v hvalid).distinct).1) hexec
      · cases hexec
  | expire v =>
      rw [exec] at hexec
      split at hexec
      · next hthere =>
          have hv := h.present v (.inl hthere.1)
          have hdead : Balanced strict 0 (s.modify v fun m => { m with alive := false }) :=
            h.move hv rfl fun halive => by cases halive
          rw [State.destroyVm] at hexec
          split at hexec
          · exact hdead.vmClose hv hexec
          · cases hexec
            exact hdead
      · cases hexec

theorem Balanced.initial (strict : Prop) (hinit : Initial s) : Balanced strict 0 s := by
  obtain ⟨child, rfl⟩ := hinit
  have habsent : ∀ v ≠ 0, (State.initial child).vms v = Vm.absent := fun v hv => by
    simp [State.initial, hv]
  have hrefs : (State.initial child).refs = Multiset.replicate (if child then 1 else 0) 0 := by
    rw [State.refs, total]
    cases child <;>
      simp [State.initial, Vm.fresh, Vm.refs, Vm.liveAddresses, Vm.attaching]
  have hcount : ((State.initial child).vms 0).nsenders = if child then 1 else 0 := by
    cases child <;> rfl
  have hself : ∀ d, ((State.initial child).vms d).alive = true →
      ((State.initial child).refs + 0).count d = ((State.initial child).vms d).nsenders := by
    intro d halive
    by_cases hd : d = 0
    · subst hd
      rw [hrefs, add_zero, Multiset.count_replicate_self, hcount]
    · rw [habsent d hd] at halive
      cases halive
  refine ⟨fun d hd => ?_, fun d hd => ?_, fun d halive _ => (hself d halive).le,
    fun _ d halive _ => hself d halive⟩
  · by_cases hd0 : d = 0
    · exact hd0 ▸ Nat.one_pos
    · rw [habsent d hd0] at hd
      simp [Vm.absent] at hd
  · rw [hrefs, add_zero] at hd
    exact Multiset.eq_of_mem_replicate hd ▸ Nat.one_pos

/-- What the invariants say together. -/
structure Counted (strict : Prop) (s : State) : Prop where
  sound : ∃ b, Sound False s b
  armed : AllArmed False s
  balanced : Balanced strict 0 s

theorem Counted.reachable {c : Config} {step : State → Action c → State → Prop}
    (hok : ∀ s a s', step s a s' → Step c s a s' ∧ (strict → forgetsAddress s a = false))
    (hs : Reachable Initial step s) : Counted strict s := by
  refine hs.invariant (fun s hinit => ⟨⟨_, .initial False hinit⟩, .initial False hinit, .initial strict hinit⟩)
    fun s a s' h ha => ?_
  obtain ⟨hstep, hstrict⟩ := hok s a s' ha
  obtain ⟨b, hsound⟩ := h.sound
  obtain ⟨b', -, hsound'⟩ := hsound.step False.elim hstep
  exact ⟨⟨b', hsound'⟩, exec_armed h.armed False.elim hstep,
    exec_balanced h.balanced hsound.simulates.bounded h.armed hstrict hstep⟩

theorem State.count_refs (hv : v < s.vmCount) :
    s.refs.count v = s.liveAddresses.count v + (s.vms v).services.length + (s.vms v).attaching.length := by
  have hother : ∀ u, (Multiset.replicate ((s.vms u).services.length + (s.vms u).attaching.length) u).count v =
      if u = v then (s.vms v).services.length + (s.vms v).attaching.length else 0 := by
    intro u
    rw [Multiset.count_replicate]
    split
    · next hu => rw [hu]
    · rfl
  rw [State.refs, State.liveAddresses, total, total, Multiset.count_sum', Multiset.count_sum']
  simp only [Vm.refs, Multiset.count_add, Finset.sum_add_distrib, hother]
  rw [Finset.sum_ite_eq' , if_pos (Finset.mem_range.mpr hv), add_assoc]

/-- In every state reached without forgetting an address, the count of an open
inbox is the number of live addresses that lead to it and of its services,
attached or about to be; once the handlers of the VM have run, of its services. -/
theorem nsenders_counts {c : Config}
    (hs : Reachable Initial (restrict (fun s a => forgetsAddress s a = false) (Step c)) s)
    (hopen : (s.vms v).isOpen = true) :
    (s.vms v).nsenders =
        s.liveAddresses.count v + (s.vms v).services.length + (s.vms v).attaching.length ∧
      ((s.vms v).strand = [] → (s.vms v).nsenders = s.liveAddresses.count v + (s.vms v).services.length) := by
  have h : Counted True s := Counted.reachable (fun _ _ _ h => ⟨h.2, fun _ => h.1⟩) hs
  have hvalid := h.armed.shut v hopen
  have hright := h.balanced.right trivial v (h.armed.armed v hvalid).alive hvalid
  rw [add_zero, State.count_refs (h.balanced.present v (.inr hvalid))] at hright
  refine ⟨hright.symm, fun hstrand => ?_⟩
  rw [← hright, Vm.attaching, hstrand]
  rfl

/-- Three fibers send the address of their VM to another, which queues them. -/
def threeAddresses : List (Action .standard) :=
  [.resumeElsewhere 0 0, .spawnVm 0, .chanSend 0 1 (.address (some 0)) true,
    .resumeElsewhere 0 1, .chanSend 0 1 (.address (some 0)) true,
    .resumeElsewhere 0 2, .chanSend 0 1 (.address (some 0)) true,
    .runHandler 1, .runHandler 1, .runHandler 1]

theorem nsenders_counts_queued :
    ∃ s, Reachable Initial (restrict (fun s a => forgetsAddress s a = false) (Step .standard)) s ∧
      (s.vms 0).isOpen = true ∧ (s.vms 0).strand = [] ∧ (s.vms 0).nsenders = 3 ∧
        s.liveAddresses.count 0 + (s.vms 0).services.length = 3 := by
  have hrun : (runIf (fun s a => !forgetsAddress s a) (State.initial false) threeAddresses).map
      (fun s => ((s.vms 0).isOpen, (s.vms 0).strand.isEmpty, (s.vms 0).nsenders)) =
        some (true, true, 3) := by decide +kernel
  obtain ⟨s, hs, hobs⟩ := Option.map_eq_some_iff.mp hrun
  have hreach := reachable_of_runIf ⟨_, ⟨false, rfl⟩, .refl⟩ hs
  simp only [Bool.not_eq_true'] at hreach
  simp only [Prod.mk.injEq] at hobs
  obtain ⟨hopen, hstrand, hcount⟩ := hobs
  have hempty : (s.vms 0).strand = [] := by simpa using hstrand
  refine ⟨s, hreach, hopen, hempty, hcount, ?_⟩
  rw [← (nsenders_counts hreach hopen).2 hempty, hcount]

/-- The second of them is interrupted: its address is overwritten by the third. -/
theorem overwritten_address_stays_counted :
    ∃ s, Reachable Initial (Step .standard) s ∧ (s.vms 0).isOpen = true ∧ (∀ v, (s.vms v).strand = []) ∧
      (s.vms 0).nsenders ≠ s.liveAddresses.count 0 + (s.vms 0).services.length := by
  have hrun : (runIf (fun _ _ => true) (State.initial false) (threeAddresses ++
      [.resumeElsewhere 0 3, .fiberInterrupt 0 1, .suspendElsewhere 0, .runHandler 1, .runHandler 0])).map
      (fun s => ([s.vmCount, (s.vms 0).nsenders, s.liveAddresses.count 0, (s.vms 0).services.length],
        [(s.vms 0).isOpen, (s.vms 0).strand.isEmpty, (s.vms 1).strand.isEmpty])) =
        some ([2, 3, 2, 0], [true, true, true]) := by decide +kernel
  obtain ⟨s, hs, hobs⟩ := Option.map_eq_some_iff.mp hrun
  have hreach := (reachable_of_runIf ⟨_, ⟨false, rfl⟩, .refl⟩ hs).of_restrict
  simp only [Prod.mk.injEq, List.cons.injEq, and_true] at hobs
  obtain ⟨⟨hvms, hcount, hlive, hservices⟩, hopen, hstrand₀, hstrand₁⟩ := hobs
  obtain ⟨b, hsound⟩ := Sound.reachable (fun _ _ _ h => ⟨h, (False.elim : False → _)⟩) hreach
  refine ⟨s, hreach, hopen, fun v => ?_, ?_⟩
  · match v with
    | 0 => simpa using hstrand₀
    | 1 => simpa using hstrand₁
    | v + 2 =>
        rw [hsound.simulates.bounded (v + 2) (by rw [hvms]; exact Nat.le_add_left _ _)]
        rfl
  · rw [hcount, hlive, hservices]
    decide

end

end Emilua.Actor
