import Emilua.Actor.Operations
import Emilua.Lib.Token

/-!
Where the suspended fibers are kept: a posted delivery, a queued message, the
continuation of a direct delivery, a posted resume and `recv_fiber` each hold
one fiber. The account of a VM lists these, and the account of a state is the
sum over its VMs. Each elementary update of a state has one equation here.
-/
namespace Emilua.Actor
open Emilua Ipc Token

inductive Place where
  | posted (d : VmId) (n : Nat)
  | queued (d : VmId) (n : Nat)
  | handing (d : VmId)
  | resuming (error : Option WakeError)
  | receiving
deriving DecidableEq, Repr

/-- The fibers that are held, and the number of posted resumes of no fiber. -/
abbrev Held := Multiset (Place × Party) × Nat

def Held.one (l : Place) (p : Party) : Held := ({(l, p)}, 0)

def Handler.held (v : VmId) : Handler → Held
  | .deliver p _ n => .one (.posted v n) p
  | .resume (some f) error => .one (.resuming error) (v, f)
  | .resume none _ => (0, 1)
  | .interruptSend _ _ | .noSenders | .attachService _ => 0

def SenderState.held (v : VmId) (e : SenderState) : Held :=
  e.vm.elim 0 fun u => .one (.queued v e.id) (u, e.fiber)

def Vm.held (v : VmId) (m : Vm) : Held :=
  (m.strand.map (Handler.held v)).sum + (m.incoming.map (SenderState.held v)).sum +
    m.cont.elim 0 (Held.one (.handing v)) + m.recvFiber.elim 0 fun f => .one .receiving (v, f)

/-- VM `v` holds the fiber of `p` at place `l`. -/
def Vm.Holds (v : VmId) (m : Vm) (l : Place) (p : Party) : Prop :=
  match l with
  | .posted d n => d = v ∧ ∃ msg, .deliver p msg n ∈ m.strand
  | .queued d n => d = v ∧ ∃ e ∈ m.incoming, e.vm = some p.1 ∧ e.fiber = p.2 ∧ e.id = n
  | .handing d => d = v ∧ m.cont = some p
  | .resuming error => p.1 = v ∧ .resume (some p.2) error ∈ m.strand
  | .receiving => p.1 = v ∧ m.recvFiber = some p.2

theorem mem_sum_held {α : Type} {f : α → Held} {x : Place × Party} (xs : List α) :
    x ∈ ((xs.map f).sum).1 ↔ ∃ a ∈ xs, x ∈ (f a).1 := by
  induction xs with
  | nil => simp
  | cons a xs ih => simp [ih]

theorem Handler.mem_held {v : VmId} {h : Handler} {l : Place} {p : Party} :
    (l, p) ∈ (h.held v).1 ↔ (∃ msg n, l = .posted v n ∧ h = .deliver p msg n) ∨
      ∃ error, l = .resuming error ∧ p.1 = v ∧ h = .resume (some p.2) error := by
  obtain ⟨u, f⟩ := p
  cases h with
  | deliver q msg n => simp [Handler.held, Held.one]; grind
  | resume fiber error => cases fiber <;> simp [Handler.held, Held.one]; grind
  | _ => simp [Handler.held]

theorem SenderState.mem_held {v : VmId} {e : SenderState} {l : Place} {p : Party} :
    (l, p) ∈ (e.held v).1 ↔ l = .queued v e.id ∧ e.vm = some p.1 ∧ e.fiber = p.2 := by
  obtain ⟨u, f⟩ := p
  cases hvm : e.vm with
  | none => simp [SenderState.held, hvm]
  | some w => simp [SenderState.held, hvm, Held.one]; grind

theorem Vm.mem_held {v : VmId} {m : Vm} {l : Place} {p : Party} :
    (l, p) ∈ (m.held v).1 ↔ m.Holds v l p := by
  have hcont : (l, p) ∈ (m.cont.elim 0 (Held.one (.handing v))).1 ↔ l = .handing v ∧ m.cont = some p := by
    cases m.cont <;> simp [Held.one, eq_comm]
  have hrecv : (l, p) ∈ (m.recvFiber.elim 0 fun f => Held.one .receiving (v, f)).1 ↔
      l = .receiving ∧ p.1 = v ∧ m.recvFiber = some p.2 := by
    obtain ⟨u, f⟩ := p
    cases m.recvFiber <;> simp [Held.one]; grind
  simp only [Vm.held, Prod.fst_add, Multiset.mem_add, mem_sum_held, Handler.mem_held,
    SenderState.mem_held, hcont, hrecv, Vm.Holds]
  cases l <;> simp <;> grind

theorem Vm.held_eq {v : VmId} {m m' : Vm} (hstrand : m'.strand = m.strand)
    (hincoming : m'.incoming = m.incoming) (hcont : m'.cont = m.cont)
    (hrecv : m'.recvFiber = m.recvFiber) : m'.held v = m.held v := by
  simp only [Vm.held, hstrand, hincoming, hcont, hrecv]

namespace State
variable {s s' : State} {v : VmId}

def held (s : State) : Held := total s.vmCount Vm.held s.vms

theorem mem_held {l : Place} {p : Party} :
    (l, p) ∈ s.held.1 ↔ ∃ v < s.vmCount, (s.vms v).Holds v l p := by
  rw [held, total, Prod.fst_sum]
  simp only [Multiset.mem_sum, Finset.mem_range, Vm.mem_held]

def suspension (s : State) (p : Party) : Suspension := ((s.vms p.1).fibers p.2).suspension

/-- Identifiers that have not been given out are unused. -/
def Bounded (s : State) : Prop := ∀ v, s.vmCount ≤ v → s.vms v = Vm.absent

theorem Bounded.lt (h : s.Bounded) (hv : s.vms v ≠ Vm.absent) : v < s.vmCount := by
  by_contra hle
  exact hv (h v (Nat.le_of_not_lt hle))

theorem Bounded.lt_of_alive (h : s.Bounded) (hv : (s.vms v).alive = true) : v < s.vmCount :=
  h.lt fun habs => by rw [habs] at hv; cases hv

theorem Bounded.lt_of_valid (h : s.Bounded) (hv : (s.vms v).valid = true) : v < s.vmCount :=
  h.lt fun habs => by rw [habs] at hv; cases hv

theorem Bounded.lt_of_suspension (h : s.Bounded) {p : Party} (hp : s.suspension p ≠ .elsewhere) :
    p.1 < s.vmCount :=
  h.lt fun habs => hp (by rw [suspension, habs]; rfl)

theorem Bounded.modify (h : s.Bounded) (hv : v < s.vmCount) (g : Vm → Vm) :
    (s.modify v g).Bounded := by
  intro u hu
  have hne : u ≠ v := by
    rintro rfl
    exact absurd hv (Nat.not_lt.mpr hu)
  rw [modify_vms_ne s hne]
  exact h u hu

theorem Bounded.post (h : s.Bounded) (hv : v < s.vmCount) (x : Handler) : (s.post v x).Bounded :=
  h.modify hv _

theorem Bounded.record (h : s.Bounded) (hist : History) : (s.record hist).Bounded := h

theorem Bounded.tick (h : s.Bounded) : s.tick.Bounded := h

theorem held_record (s : State) (hist : History) : (s.record hist).held = s.held := rfl

theorem held_modify (hv : v < s.vmCount) (g : Vm → Vm) :
    (s.modify v g).held + (s.vms v).held v = s.held + (g (s.vms v)).held v :=
  total_update Vm.held s.vms hv _

theorem held_modify_eq {g : Vm → Vm} (hg : (g (s.vms v)).held v = (s.vms v).held v) :
    (s.modify v g).held = s.held :=
  total_congr Vm.held s.vms fun u _ =>
    modify_vms_cases (Q := fun u m => m.held u = (s.vms u).held u) g hg (fun _ _ => rfl) u

theorem held_modify_give (hv : v < s.vmCount) {g : Vm → Vm} {x : Held}
    (hg : (g (s.vms v)).held v = (s.vms v).held v + x) : (s.modify v g).held = s.held + x := by
  have hmodify := held_modify hv g
  rw [hg, add_comm ((s.vms v).held v), ← add_assoc] at hmodify
  exact add_right_cancel hmodify

theorem held_modify_take (hv : v < s.vmCount) {g : Vm → Vm} {x : Held}
    (hg : (g (s.vms v)).held v + x = (s.vms v).held v) : (s.modify v g).held + x = s.held := by
  have hmodify := held_modify hv g
  rw [← hg, ← add_assoc, add_right_comm] at hmodify
  exact add_right_cancel hmodify

theorem held_post (hv : v < s.vmCount) (h : Handler) :
    (s.post v h).held = s.held + h.held v := by
  refine held_modify_give hv ?_
  simp only [Vm.held, List.map_append, List.sum_append, List.map_singleton, List.sum_singleton]
  abel

theorem fiberResume_of_resumed {f : FiberId} {error : Option WakeError} {hist : History}
    (hvalid : (s.vms v).valid = true)
    (hist_eq : (s.suspension (v, f)).resumed s.hist error = some hist) :
    s.fiberResume v (some f) error = .ok ((s.modify v (Vm.resumed · f)).record hist) := by
  rw [suspension] at hist_eq
  simp only [fiberResume, hvalid, Bool.true_eq_false, if_false, hist_eq]

theorem fiberResume_of_invalid (fiber : Option FiberId) (error : Option WakeError)
    (hvalid : (s.vms v).valid = false) : s.fiberResume v fiber error = .ok s := by
  simp only [fiberResume, hvalid, if_true]

theorem fiberResume_cases {fiber : Option FiberId} {error : Option WakeError}
    (h : s.fiberResume v fiber error = .ok s') :
    (s.vms v).valid = false ∧ s' = s ∨ (s.vms v).valid = true ∧ ∃ f hist, fiber = some f ∧
      (s.suspension (v, f)).resumed s.hist error = some hist ∧
        s' = (s.modify v (Vm.resumed · f)).record hist := by
  cases hvalid : (s.vms v).valid with
  | false =>
      rw [fiberResume_of_invalid _ _ hvalid, Except.ok.injEq] at h
      exact .inl ⟨rfl, h.symm⟩
  | true =>
      simp only [fiberResume, hvalid, Bool.true_eq_false, if_false] at h
      split at h
      · cases h
      · next f =>
          split at h
          · cases h
          · next hist hresumed =>
              cases h
              exact .inr ⟨rfl, f, hist, rfl, hresumed, rfl⟩

end State

/-- Only the senders have been counted anew, and whoever counted them to zero
has posted that. -/
def Vm.Recount (m m' : Vm) : Prop :=
  ∃ k n a, m' = { m with
    strand := m.strand ++ List.replicate k .noSenders, nsenders := n, addresses := a }

namespace Vm.Recount
variable {m m' m'' : Vm}

theorem counted (m : Vm) (n : Nat) (a : List (Nat × VmId)) :
    m.Recount { m with nsenders := n, addresses := a } :=
  ⟨0, n, a, by rw [List.replicate_zero, List.append_nil]⟩

theorem refl (m : Vm) : m.Recount m := counted m m.nsenders m.addresses

theorem trans (h : m.Recount m') (h' : m'.Recount m'') : m.Recount m'' := by
  obtain ⟨k, n, a, rfl⟩ := h
  obtain ⟨k', n', a', rfl⟩ := h'
  exact ⟨k + k', n', a', by simp only [List.append_assoc, List.replicate_append_replicate]⟩

theorem held_eq (h : m.Recount m') (v : VmId) : m'.held v = m.held v := by
  obtain ⟨k, n, a, rfl⟩ := h
  simp [Vm.held, Handler.held]

end Vm.Recount

structure State.Recount (s s' : State) : Prop where
  vm : ∀ v, (s.vms v).Recount (s'.vms v)
  vmCount : s'.vmCount = s.vmCount
  hist : s'.hist = s.hist
  fresh : s.fresh ≤ s'.fresh
  bounded : s.Bounded → s'.Bounded

namespace State.Recount
variable {s s' s'' : State} {v : VmId}

theorem refl (s : State) : s.Recount s := ⟨fun _ => .refl _, rfl, rfl, le_rfl, id⟩

theorem trans (h : s.Recount s') (h' : s'.Recount s'') : s.Recount s'' :=
  ⟨fun v => (h.vm v).trans (h'.vm v), h'.vmCount.trans h.vmCount, h'.hist.trans h.hist,
    h.fresh.trans h'.fresh, fun hb => h'.bounded (h.bounded hb)⟩

theorem held_eq (h : s.Recount s') : s'.held = s.held := by
  rw [State.held, State.held, h.vmCount]
  exact total_congr Vm.held s.vms fun v _ => (h.vm v).held_eq v

theorem of_modify {g : Vm → Vm} (hg : (s.vms v).Recount (g (s.vms v)))
    (hv : s.Bounded → v < s.vmCount) : s.Recount (s.modify v g) :=
  ⟨modify_vms_cases (Q := fun u m => (s.vms u).Recount m) g hg fun _ _ => .refl _,
    rfl, rfl, le_rfl, fun hb => hb.modify (hv hb) g⟩

theorem foldl {α : Type} {f : State → α → State} (h : ∀ (s : State) x, s.Recount (f s x)) (s : State)
    (xs : List α) : s.Recount (xs.foldl f s) := by
  induction xs generalizing s with
  | nil => exact refl s
  | cons x xs ih => exact (h s x).trans (ih (f s x))

theorem copyAddress (s : State) (d : VmId) : s.Recount (s.copyAddress d) := by
  rw [State.copyAddress]
  split
  · next halive =>
      exact of_modify (.counted ..) fun hb => hb.lt_of_alive halive
  · exact refl s

theorem dropAddress (s : State) (d : VmId) : s.Recount (s.dropAddress d) := by
  rw [State.dropAddress]
  split
  · next halive =>
      have hcount : s.Recount (s.modify d fun m => { m with nsenders := m.nsenders - 1 }) :=
        of_modify (.counted ..) fun hb => hb.lt_of_alive halive
      dsimp only
      split
      · exact hcount.trans (of_modify ⟨1, _, _, rfl⟩ fun hb => hb.lt_of_alive (by simpa using halive))
      · exact hcount
  · exact refl s

theorem copyAddresses (s : State) (ds : List VmId) : s.Recount (s.copyAddresses ds) :=
  foldl copyAddress s ds

theorem dropAddresses (s : State) (ds : List VmId) : s.Recount (s.dropAddresses ds) :=
  foldl dropAddress s ds

theorem adoptAddress (hv : v < s.vmCount) (d : VmId) : s.Recount (State.adoptAddress v s d) := by
  have hmodify : s.Recount (s.modify v fun m => { m with addresses := (s.fresh, d) :: m.addresses }) :=
    of_modify (.counted ..) fun _ => hv
  exact ⟨hmodify.vm, rfl, rfl, Nat.le_succ _, hmodify.bounded⟩

theorem adoptAddresses (hv : v < s.vmCount) (ds : List VmId) :
    s.Recount (s.adoptAddresses v ds) := by
  induction ds generalizing s with
  | nil => exact refl s
  | cons d ds ih =>
      have hd := adoptAddress hv d
      exact hd.trans (ih (hd.vmCount ▸ hv))

end State.Recount

/-- A VM without its strand, queue and addresses. -/
def Vm.core (m : Vm) : Vm := { m with strand := [], incoming := [], nsenders := 0, addresses := [] }

/-- Only strands, queues and addresses differ. -/
structure State.Frame (s s' : State) : Prop where
  core : ∀ v, (s'.vms v).core = (s.vms v).core
  vmCount : s'.vmCount = s.vmCount

namespace State.Frame
variable {s s' s'' : State} {v : VmId}

theorem refl (s : State) : s.Frame s := ⟨fun _ => rfl, rfl⟩

theorem trans (h : s.Frame s') (h' : s'.Frame s'') : s.Frame s'' :=
  ⟨fun v => (h'.core v).trans (h.core v), h'.vmCount.trans h.vmCount⟩

theorem of_recount (h : s.Recount s') : s.Frame s' := by
  refine ⟨fun v => ?_, h.vmCount⟩
  obtain ⟨k, n, a, heq⟩ := h.vm v
  rw [heq]
  rfl

theorem modify {g : Vm → Vm} (hg : (g (s.vms v)).core = (s.vms v).core) : s.Frame (s.modify v g) :=
  ⟨modify_vms_cases (Q := fun u m => m.core = (s.vms u).core) g hg fun _ _ => rfl, rfl⟩

theorem post (s : State) (v : VmId) (h : Handler) : s.Frame (s.post v h) := modify rfl

theorem record (h : s.Frame s') (hist : History) : s.Frame (s'.record hist) := ⟨h.core, h.vmCount⟩

theorem tick (h : s.Frame s') : s.Frame s'.tick := ⟨h.core, h.vmCount⟩

theorem adoptAddresses (s : State) (v : VmId) (ds : List VmId) : s.Frame (s.adoptAddresses v ds) := by
  induction ds generalizing s with
  | nil => exact refl s
  | cons d ds ih =>
      have hd : s.Frame (State.adoptAddress v s d) := tick (modify rfl)
      exact hd.trans (ih _)

theorem destroySender {e : SenderState} (h : s.destroySender e = .ok s') : s.Frame s' := by
  rw [State.destroySender] at h
  split at h
  · split at h
    · cases h
    · cases h
      exact (post ..).trans (of_recount (.dropAddresses _ _))
  · cases h
    exact of_recount (.dropAddresses _ _)

theorem clearIncoming {es : List SenderState} (h : s.clearIncoming v es = .ok s') : s.Frame s' := by
  induction es generalizing s with
  | nil =>
      rw [State.clearIncoming, Except.ok.injEq] at h
      exact h ▸ refl _
  | cons e es ih =>
      rw [State.clearIncoming] at h
      cases hd : (s.modify v fun m => { m with incoming := es }).destroySender
          { e with wakeOnDestruct := true } with
      | error fault =>
          rw [hd] at h
          cases h
      | ok s₁ =>
          rw [hd] at h
          exact (modify rfl).trans ((destroySender hd).trans (ih h))

end State.Frame

end Emilua.Actor
