import Emilua.Actor.Channels
import Emilua.Ipc.Format

/-!
What closing an inbox does to the messages that are still queued in it. All
closers mark every entry and clear the queue, and the destructor of an entry
wakes its sender; an entry that came from another process has none.
-/
namespace Emilua.Actor
open Emilua Ipc Relation Transition

variable {s s' : State} {u v : VmId}

/-- The fiber a posted resume tells that the channel is closed. -/
def Handler.closed? : Handler → Option FiberId
  | .resume (some f) (some .channelClosed) => some f
  | _ => none

def Vm.toldClosed (m : Vm) : List FiberId := m.strand.filterMap Handler.closed?

/-- The sender of an entry, if it is a fiber of `u`. -/
def SenderState.from? (u : VmId) (e : SenderState) : Option FiberId :=
  if e.vm = some u then some e.fiber else none

inductive Closer where
  | inboxClose
  | inboxGc
  | vmClose
  | mainEnd
deriving DecidableEq, Repr

namespace Closer

def close (s : State) (v : VmId) : Closer → ExecM State
  | .inboxClose => s.inboxClose v
  | .inboxGc => s.inboxGc v
  | .vmClose => s.vmClose v
  | .mainEnd => s.closeUnimported v 0

/-- Whether the call gets as far as closing. -/
def Applies (m : Vm) : Closer → Prop
  | .inboxClose | .inboxGc => m.isOpen = true
  | .vmClose => True
  | .mainEnd => m.imported = false

/-- `inbox:close` also tells the fiber that waits to receive. -/
def receiver (s : State) (v u : VmId) : Closer → List FiberId
  | .inboxClose => if u = v then (s.vms v).recvFiber.toList else []
  | .inboxGc | .vmClose | .mainEnd => []

/-- The queue is empty afterwards, and those told that the channel is closed are
the senders of its entries, once each. -/
def ClosesCleanly (s : State) (v : VmId) (k : Closer) : Prop :=
  ∃ s', k.close s v = .ok s' ∧ (s'.vms v).incoming = [] ∧
    ∀ u, (s'.vms u).toldClosed = (s.vms u).toldClosed ++ k.receiver s v u ++
      (s.vms v).incoming.filterMap (SenderState.from? u)

end Closer

theorem State.toldClosed_post (s : State) (u w : VmId) (x : Handler) :
    ((s.post w x).vms u).toldClosed =
      (s.vms u).toldClosed ++ if u = w then x.closed?.toList else [] := by
  rw [State.post_vms]
  by_cases h : u = w
  · subst h
    cases hx : x.closed? <;> simp [Vm.toldClosed, hx]
  · simp [Vm.toldClosed, h]

theorem State.Recount.toldClosed (h : s.Recount s') (u : VmId) :
    (s'.vms u).toldClosed = (s.vms u).toldClosed := by
  obtain ⟨k, n, a, heq⟩ := h.vm u
  rw [heq]
  simp [Vm.toldClosed, Handler.closed?]

theorem State.toldClosed_modify {g : Vm → Vm} (hg : (g (s.vms v)).strand = (s.vms v).strand) (u : VmId) :
    ((s.modify v g).vms u).toldClosed = (s.vms u).toldClosed :=
  State.modify_vms_cases (Q := fun u m => m.toldClosed = (s.vms u).toldClosed) g
    (by rw [Vm.toldClosed, hg, Vm.toldClosed]) (fun _ _ => rfl) u

theorem State.toldClosed_yield (s : State) (v u : VmId) :
    ((s.yield v).vms u).toldClosed = (s.vms u).toldClosed := by
  have hpark := State.toldClosed_modify (s := s) (v := v)
    (g := fun m => { m with current := none, cont := none }) rfl u
  rw [State.yield]
  split
  · exact hpark
  · rw [State.toldClosed_post, hpark]
    simp [Handler.closed?]

theorem clearIncoming_null {es : List SenderState} (h : ∃ e ∈ es, e.vm = none) (s : State) (v : VmId) :
    s.clearIncoming v es = .error .nullSender := by
  induction es generalizing s with
  | nil =>
      obtain ⟨e, he, -⟩ := h
      cases he
  | cons e es ih =>
      rw [State.clearIncoming]
      cases hvm : e.vm with
      | none => rfl
      | some u =>
          obtain ⟨e', he', hnone⟩ := h
          have hrest : ∃ e ∈ es, e.vm = none := by
            rcases List.mem_cons.mp he' with rfl | he'
            · rw [hvm] at hnone
              cases hnone
            · exact ⟨e', he', hnone⟩
          exact ih hrest _

theorem clearIncoming_spec {es : List SenderState} (h : ∀ e ∈ es, e.vm ≠ none) (s : State) (v : VmId)
    (hincoming : (s.vms v).incoming = es) :
    ∃ s', s.clearIncoming v es = .ok s' ∧ (s'.vms v).incoming = [] ∧
      ∀ u, (s'.vms u).toldClosed = (s.vms u).toldClosed ++ es.filterMap (SenderState.from? u) := by
  induction es generalizing s with
  | nil => exact ⟨s, rfl, hincoming, fun u => by simp⟩
  | cons e es ih =>
      obtain ⟨w, hvm⟩ := Option.ne_none_iff_exists'.mp (h e List.mem_cons_self)
      rw [State.clearIncoming]
      let s₁ := (s.modify v fun m => { m with incoming := es }).post w
        (.resume (some e.fiber) (some .channelClosed))
      have hdrop := State.Recount.dropAddresses s₁ e.msg.addresses
      obtain ⟨s', hs', hempty, htold⟩ := ih (fun e he => h e (List.mem_cons_of_mem _ he))
        (s₁.dropAddresses e.msg.addresses) (by
          obtain ⟨k, n, a, heq⟩ := hdrop.vm v
          rw [heq]
          simp [s₁, State.post_vms])
      refine ⟨s', ?_, hempty, fun u => ?_⟩
      · rw [hvm]
        exact hs'
      · rw [htold, hdrop.toldClosed, State.toldClosed_post, State.toldClosed_modify rfl,
          List.append_assoc]
        by_cases hu : u = w
        · subst hu
          simp [SenderState.from?, hvm, Handler.closed?]
        · simp [SenderState.from?, hvm, hu, Ne.symm hu]

theorem State.incoming_yield (s : State) (v u : VmId) :
    ((s.yield v).vms u).incoming = (s.vms u).incoming := by
  have hpark : ((s.modify v fun m => { m with current := none, cont := none }).vms u).incoming =
      (s.vms u).incoming :=
    State.modify_vms_cases (Q := fun u m => m.incoming = (s.vms u).incoming) _ rfl (fun _ _ => rfl) u
  rw [State.yield]
  split
  · exact hpark
  · rw [State.post_vms]
    exact hpark

namespace Closer

/-- What a closer does before it clears the queue of `v`, and after that. -/
structure Clears (k : Closer) (s : State) (v : VmId) (t : State) (finish : State → State) : Prop where
  incoming : (t.vms v).incoming = (s.vms v).incoming
  told : ∀ u, (t.vms u).toldClosed = (s.vms u).toldClosed ++ k.receiver s v u
  finish_incoming : ∀ s', ((finish s').vms v).incoming = (s'.vms v).incoming
  finish_told : ∀ s' u, ((finish s').vms u).toldClosed = (s'.vms u).toldClosed
  close_eq : k.close s v = (t.clearIncoming v (s.vms v).incoming).map finish

theorem clears_inboxClose (hopen : (s.vms v).isOpen = true) :
    ∃ t finish, Clears .inboxClose s v t finish := by
  cases hrecv : (s.vms v).recvFiber with
  | none =>
      refine ⟨s.modify v fun m => { m with isOpen := false }, id, by simp, fun u => ?_, fun _ => rfl,
        fun _ _ => rfl, ?_⟩
      · rw [State.toldClosed_modify rfl, receiver, hrecv]
        simp
      · rw [Except.map_id]
        simp [close, State.inboxClose, hopen, hrecv]
  | some g =>
      refine ⟨((s.modify v fun m => { m with recvFiber := none }).post v
        (.resume (some g) (some .channelClosed))).modify v fun m => { m with isOpen := false }, id,
        by simp [State.post_vms], fun u => ?_, fun _ => rfl, fun _ _ => rfl, ?_⟩
      · rw [State.toldClosed_modify rfl, State.toldClosed_post, State.toldClosed_modify rfl, receiver, hrecv]
        rfl
      · rw [Except.map_id]
        simp [close, State.inboxClose, hopen, hrecv]

theorem clears_inboxGc (hopen : (s.vms v).isOpen = true) : ∃ t finish, Clears .inboxGc s v t finish := by
  refine ⟨s.modify v fun m => { m with recvFiber := none, isOpen := false }, id, by simp, fun u => ?_,
    fun _ => rfl, fun _ _ => rfl, ?_⟩
  · rw [State.toldClosed_modify rfl, receiver, List.append_nil]
  · rw [Except.map_id]
    simp [close, State.inboxGc, hopen]

theorem clears_mainEnd (himported : (s.vms v).imported = false) :
    ∃ t finish, Clears .mainEnd s v t finish := by
  refine ⟨s.modify v fun m => { m with isOpen := false }, id, by simp, fun u => ?_, fun _ => rfl,
    fun _ _ => rfl, ?_⟩
  · rw [State.toldClosed_modify rfl, receiver, List.append_nil]
  · rw [Except.map_id]
    simp [close, State.closeUnimported, himported]

theorem clears_vmClose (s : State) (v : VmId) : ∃ t finish, Clears .vmClose s v t finish := by
  have hdrop := State.Recount.dropAddresses (s.modify v fun m => { m with addresses := [] })
    ((s.vms v).addresses.map Prod.snd)
  refine ⟨State.modify (State.dropAddresses (s.modify v fun m => { m with addresses := [] })
      ((s.vms v).addresses.map Prod.snd)) v Vm.invalidated,
    fun s => (s.modify v fun m => { m with services := [] }).yield v, ?_, fun u => ?_, fun s' => ?_,
    fun s' u => ?_, ?_⟩
  · obtain ⟨k, n, a, heq⟩ := hdrop.vm v
    rw [State.modify_vms_self, heq]
    simp [Vm.invalidated]
  · rw [State.toldClosed_modify rfl, hdrop.toldClosed, State.toldClosed_modify rfl, receiver,
      List.append_nil]
  · rw [State.incoming_yield, State.modify_vms_self]
  · rw [State.toldClosed_yield, State.toldClosed_modify rfl]
  · rfl

theorem clears {k : Closer} (h : k.Applies (s.vms v)) : ∃ t finish, Clears k s v t finish := by
  cases k with
  | inboxClose => exact clears_inboxClose h
  | inboxGc => exact clears_inboxGc h
  | vmClose => exact clears_vmClose s v
  | mainEnd => exact clears_mainEnd h

/-- Closing wakes exactly the in-process senders if and only if the queue holds
no message from another process. -/
theorem closes_cleanly_iff (k : Closer) (s : State) (v : VmId) (h : k.Applies (s.vms v)) :
    k.ClosesCleanly s v ↔ ∀ e ∈ (s.vms v).incoming, e.vm ≠ none := by
  obtain ⟨t, finish, ht⟩ := clears h
  constructor
  · rintro ⟨s', hs', -⟩ e he hnone
    rw [ht.close_eq, clearIncoming_null ⟨e, he, hnone⟩] at hs'
    cases hs'
  · intro hsenders
    obtain ⟨s', hs', hempty, htold⟩ := clearIncoming_spec hsenders t v ht.incoming
    refine ⟨finish s', ?_, ?_, fun u => ?_⟩
    · rw [ht.close_eq, hs']
      rfl
    · rw [ht.finish_incoming, hempty]
    · rw [ht.finish_told, htold, ht.told]

/-- The message of VM 0 is queued at VM 1, which closes its inbox. -/
def queuedInProcess : List (Action .standard) :=
  [.resumeElsewhere 0 0, .spawnVm 0, .chanSend 0 1 (.boolean true) true, .runHandler 1,
    .resumeElsewhere 1 0, .importInbox 1]

theorem closes_cleanly_in_process : ∃ s, Reachable Initial (Step .standard) s ∧
    (s.vms 1).incoming.map (·.vm) = [some 0] ∧ Closer.inboxClose.ClosesCleanly s 1 := by
  have hrun : (runIf (fun _ _ => true) (State.initial false) queuedInProcess).map
      (fun s => ((s.vms 1).incoming.map (·.vm), (s.vms 1).isOpen)) = some ([some 0], true) := by
    decide +kernel
  obtain ⟨s, hs, hobs⟩ := Option.map_eq_some_iff.mp hrun
  obtain ⟨hqueue, hopen⟩ := Prod.ext_iff.mp hobs
  refine ⟨s, (reachable_of_runIf ⟨_, ⟨false, rfl⟩, .refl⟩ hs).of_restrict, hqueue,
    (closes_cleanly_iff .inboxClose s 1 hopen).mpr fun e he hnone => ?_⟩
  have hmem := List.mem_map_of_mem (f := (·.vm)) he
  dsimp only at hqueue hmem
  rw [hqueue, hnone] at hmem
  simp at hmem

theorem render_flag_length : (render .standard (.flat (.boolean true))).length = 16 := by
  decide +kernel

/-- The packet of the message `true`. -/
def flagPacket : Received .standard :=
  .ofWire _ (render _ (.flat (.boolean true))) (by rw [render_flag_length]; decide) 0 []

/-- A fiber of a child process gives up its receive, so that the packet that
arrives next is queued. -/
def queuedFromParent : List (Action .standard) :=
  [.resumeElsewhere 0 0, .importInbox 0, .suspendElsewhere 0, .resumeElsewhere 0 1,
    .chanReceive 0 true, .resumeElsewhere 0 0, .fiberInterrupt 0 1, .suspendElsewhere 0,
    .onWait 0 0 (.packet flagPacket), .resumeElsewhere 0 0]

theorem ipc_message_is_not_closed_cleanly : ∃ s, Reachable Initial (Step .standard) s ∧
    exec (c := .standard) s (.inboxClose 0) = .error .nullSender ∧
      ¬ Closer.inboxClose.ClosesCleanly s 0 := by
  have hrun : (runIf (fun _ _ => true) (State.initial true) queuedFromParent).map
      (fun s => ((s.vms 0).incoming.map (·.vm), (s.vms 0).isOpen, (s.vms 0).valid,
        (s.vms 0).current, (s.vms 0).imported)) = some ([none], true, true, some 0, true) := by
    decide +kernel
  obtain ⟨s, hs, hobs⟩ := Option.map_eq_some_iff.mp hrun
  simp only [Prod.mk.injEq] at hobs
  obtain ⟨hqueue, hopen, hvalid, hcurrent, himported⟩ := hobs
  obtain ⟨e, he, hnone⟩ : ∃ e ∈ (s.vms 0).incoming, e.vm = none := by
    have hmem : none ∈ (s.vms 0).incoming.map (·.vm) := by rw [hqueue]; simp
    simpa using List.mem_map.mp hmem
  obtain ⟨t, finish, ht⟩ := clears_inboxClose hopen
  have hclose : s.inboxClose 0 = .error .nullSender := by
    have hnull := ht.close_eq
    rw [clearIncoming_null ⟨e, he, hnone⟩] at hnull
    exact hnull
  refine ⟨s, (reachable_of_runIf ⟨_, ⟨true, rfl⟩, .refl⟩ hs).of_restrict, ?_, ?_⟩
  · have hrunning : s.runningFiber 0 = .ok 0 := by simp [State.runningFiber, hvalid, hcurrent]
    rw [exec, hrunning, himported]
    exact hclose
  · rintro ⟨s', hs', -⟩
    rw [close, hclose] at hs'
    cases hs'

end Closer

end Emilua.Actor
