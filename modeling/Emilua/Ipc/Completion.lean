import Mathlib.Data.List.ReduceOption
import Emilua.Ipc.RoundTrip

/-!
How a send over an IPC channel ends. Descriptors belong to their handles, the
ends of new sockets to the operation; on each way out the handles are to get
their descriptors back and the sockets are to be closed.

A message names a lock for each of its descriptors, but only the first
`descriptors_size` slots are looked at when it ends, and that counter has eight
bits. Which locks those slots hold is worked out first.
-/
namespace Emilua.Ipc
open Wire

/-- How a wait for the socket ends: `sendmsg` asks for another one, takes the
packet or fails; the wait itself is cancelled or fails; or the VM is gone. -/
inductive Wake where
  | again
  | sent
  | failed (errno : Nat)
  | aborted (code : Nat)
  | invalid
deriving DecidableEq, Repr

/-- A call raises at once, or its fiber is resumed later if there still is one. -/
inductive Ending where
  | raised (e : SendError)
  | resumed (error : Option Nat)
  | vmClosed
deriving DecidableEq, Repr

/-- The loop of `on_wait` over the descriptors: handles get theirs back, what
belongs to the operation is closed. -/
def release : List FdLock → Heap → Heap × List Int
  | [], h => (h, [])
  | lock :: rest, h =>
      match lock.reference with
      | some ref => release rest { h with userdata := h.userdata.set ref (.fileDescriptor lock.value) }
      | none =>
          let (h, closed) := release rest h
          (h, lock.value :: closed)

/-- One call of `on_wait`; `none` when it waits again. -/
def SendOp.onWait (op : SendOp) (h : Heap) : Wake → Option (Ending × Heap × List Int)
  | .invalid => some (.vmClosed, h, op.descriptors.map FdLock.value)
  | .aborted code => some (.resumed (some code), release op.descriptors h)
  | .again => none
  | .failed errno => some (.resumed (some errno), release op.descriptors h)
  | .sent => some (.resumed none, release op.descriptors h)

/-- The operation over a sequence of wakes, each with the heap it finds. -/
def SendOp.run (op : SendOp) : List (Wake × Heap) → Option (Ending × Heap × List Int)
  | [] => none
  | (wake, h) :: rest => (op.onWait h wake).orElse fun _ => op.run rest

/-- The descriptors that belong to the operation. -/
def sockets : List FdLock → List Int
  | [] => []
  | lock :: rest =>
      match lock.reference with
      | some _ => sockets rest
      | none => lock.value :: sockets rest

/-- The scope guard of `ipc_actor_chan_send`, run when the call raises. -/
def SendState.scopeExit (st : SendState) : List Int :=
  sockets (st.descriptors.take st.descriptorsSize.toNat)

/-- A call that has ended: the heap, the descriptors closed on the way out and
the sockets made for the message. -/
structure Completion where
  ending : Ending
  heap : Heap
  closed : List Int
  exports : List Export

/-- A whole call, from its arguments to its end. -/
def sendThrough (c : Config) (socketpair : Nat → Except Nat (Int × Int)) (suspendAllowed : Bool)
    (h : Heap) (channel msg : LuaVal) (wakes : List (Wake × Heap)) : Option Completion :=
  match ipcActorChanSend c socketpair suspendAllowed h channel msg with
  | .error (e, st) => some ⟨.raised e, h, st.scopeExit, st.exports⟩
  | .ok (op, _) =>
      (op.run wakes).map fun (ending, h, closed) => ⟨ending, h, closed, op.exports⟩

/-! The slots the counter leaves in view. -/

theorem FdLock.store_reference (lock slot : FdLock) :
    (lock.store slot).reference = lock.reference.or slot.reference := by
  unfold FdLock.store
  split
  · rename_i href
    rw [href, Option.some_or]
  · rename_i href
    rw [href, Option.none_or]

/-- A slot without a reference has only ever kept sockets. -/
theorem storeLocks_owned {slots locks : List FdLock} {i j : Nat} {slot : FdLock}
    (hslot : (storeLocks slots i locks)[j]? = some slot) (hown : slot.reference = none) :
    (∃ before, slots[j]? = some before ∧ before.reference = none) ∧
      ∀ k lock, locks[k]? = some lock → (i + k) % 256 = j → lock.reference = none := by
  induction locks generalizing slots i with
  | nil => exact ⟨⟨slot, hslot, hown⟩, by simp⟩
  | cons head locks ih =>
      obtain ⟨⟨before, hbefore, hnone⟩, hrest⟩ := ih hslot
      by_cases hij : i % 256 = j
      · subst hij
        rw [List.getElem?_modify_eq, Option.map_eq_map, Option.map_eq_some_iff] at hbefore
        obtain ⟨first, hfirst, rfl⟩ := hbefore
        rw [FdLock.store_reference, Option.or_eq_none_iff] at hnone
        refine ⟨⟨first, hfirst, hnone.2⟩, ?_⟩
        intro k lock hlock hk
        cases k with
        | zero =>
            obtain rfl : head = lock := by simpa using hlock
            exact hnone.1
        | succ k => exact hrest k lock (by simpa using hlock) (by omega)
      · rw [List.getElem?_modify_ne _ _ hij] at hbefore
        refine ⟨⟨before, hbefore, hnone⟩, ?_⟩
        intro k lock hlock hk
        cases k with
        | zero => exact absurd (by simpa using hk) hij
        | succ k => exact hrest k lock (by simpa using hlock) (by omega)

theorem countP_le_of_getElem? {α : Type} {p : α → Bool} {l l' : List α}
    (h : ∀ (j : Nat) (a : α), l[j]? = some a → p a = true → ∃ b, l'[j]? = some b ∧ p b = true) :
    l.countP p ≤ l'.countP p := by
  induction l generalizing l' with
  | nil => exact Nat.zero_le _
  | cons a l ih =>
      cases l' with
      | nil =>
          have hnone : ∀ b ∈ a :: l, ¬ p b = true := by
            intro b hb hp
            obtain ⟨j, hj⟩ := List.mem_iff_getElem?.mp hb
            obtain ⟨_, hget, _⟩ := h j b hj hp
            simp at hget
          rw [List.countP_eq_zero.mpr hnone]
          exact Nat.zero_le _
      | cons b l' =>
          have hrest := @ih l' fun j x hx hp => h (j + 1) x hx hp
          rw [List.countP_cons, List.countP_cons]
          by_cases ha : p a = true
          · obtain ⟨b', hb', hp⟩ := h 0 a rfl ha
            obtain rfl : b = b' := by simpa using hb'
            rw [if_pos ha, if_pos hp]
            omega
          · rw [if_neg ha]
            omega

def FdLock.isOwned (lock : FdLock) : Bool := lock.reference.isNone

theorem sockets_length (locks : List FdLock) :
    (sockets locks).length = locks.countP FdLock.isOwned := by
  induction locks with
  | nil => rfl
  | cons lock locks ih =>
      obtain ⟨reference, value⟩ := lock
      cases reference <;> simp [sockets, FdLock.isOwned, List.countP_cons, ih]

theorem countP_isOwned (locks : List FdLock) :
    locks.countP FdLock.isOwned = (locks.map FdLock.reference).count none := by
  rw [List.count, List.countP_map]
  apply List.countP_congr
  intro lock _
  cases h : lock.reference <;> simp [FdLock.isOwned, h]

/-- Once the counter has wrapped, every socket in view has another one behind
it, so some are never looked at. -/
theorem wrapped_count (n : Nat) {locks : List FdLock} (hwrap : 256 ≤ locks.length)
    (hsome : 0 < locks.countP FdLock.isOwned) :
    ((storeLocks (List.replicate n .fresh) 0 locks).take (locks.length % 256)).countP
      FdLock.isOwned < locks.countP FdLock.isOwned := by
  set view := (storeLocks (List.replicate n .fresh) 0 locks).take (locks.length % 256) with hview
  have hmod : locks.length % 256 < 256 := Nat.mod_lt _ (by omega)
  have hboth : ∀ (j : Nat) (slot : FdLock), view[j]? = some slot → slot.isOwned = true →
      (∃ lock, (locks.take 256)[j]? = some lock ∧ lock.isOwned = true) ∧
        ∃ lock, (locks.drop 256)[j]? = some lock ∧ lock.isOwned = true := by
    intro j slot hslot hown
    obtain ⟨hslot, hj⟩ : (storeLocks (List.replicate n .fresh) 0 locks)[j]? = some slot ∧
        j < locks.length % 256 := by
      rw [hview, List.getElem?_take] at hslot
      split at hslot
      · exact ⟨hslot, by assumption⟩
      · cases hslot
    have hkept := (storeLocks_owned hslot (by simpa [FdLock.isOwned] using hown)).2
    have hlate : 256 + j < locks.length := by omega
    constructor
    · refine ⟨locks[j], ?_, ?_⟩
      · rw [List.getElem?_take_of_lt (by omega), List.getElem?_eq_getElem]
      · simpa [FdLock.isOwned] using hkept j _ (List.getElem?_eq_getElem (by omega)) (by omega)
    · refine ⟨locks[256 + j], ?_, ?_⟩
      · rw [List.getElem?_drop, List.getElem?_eq_getElem]
      · simpa [FdLock.isOwned] using
          hkept (256 + j) _ (List.getElem?_eq_getElem hlate) (by omega)
  have hearly := countP_le_of_getElem? fun j slot hs ho => (hboth j slot hs ho).1
  have hlate := countP_le_of_getElem? fun j slot hs ho => (hboth j slot hs ho).2
  have hsplit : (locks.take 256).countP FdLock.isOwned + (locks.drop 256).countP FdLock.isOwned =
      locks.countP FdLock.isOwned := by
    rw [← List.countP_append, List.take_append_drop]
  omega

theorem storeLocks_forall {P : FdLock → Prop} {slots locks : List FdLock} {i : Nat}
    (hslots : ∀ slot ∈ slots, P slot)
    (hstore : ∀ lock ∈ locks, ∀ slot, P slot → P (lock.store slot)) :
    ∀ slot ∈ storeLocks slots i locks, P slot := by
  induction locks generalizing slots i with
  | nil => exact hslots
  | cons lock locks ih =>
      rw [storeLocks]
      apply ih
      · intro slot hslot
        obtain ⟨j, hj⟩ := List.mem_iff_getElem?.mp hslot
        rw [List.getElem?_modify, Option.map_eq_map, Option.map_eq_some_iff] at hj
        obtain ⟨before, hbefore, rfl⟩ := hj
        have hold := hslots before (List.mem_of_getElem? hbefore)
        split
        · exact hstore lock (by simp) before hold
        · exact hold
      · exact fun lock' hmem => hstore lock' (List.mem_cons_of_mem _ hmem)

/-- With handles only, the slots in view hold the last of them. -/
theorem storeLocks_wrapped {locks : List FdLock} {n : Nat} (hsingle : ∀ lock ∈ locks, lock.Single)
    (hrefs : ∀ lock ∈ locks, lock.reference ≠ none) (hwrap : 256 ≤ locks.length) (hn : 256 ≤ n) :
    (storeLocks (List.replicate n .fresh) 0 locks).take (locks.length % 256) =
      locks.drop (locks.length - locks.length % 256) := by
  have hmod : locks.length % 256 < 256 := Nat.mod_lt _ (by omega)
  set last := locks.drop (locks.length - locks.length % 256) with hlast
  set front := locks.take (locks.length - locks.length % 256) with hfront
  have hlen : last.length = locks.length % 256 := by rw [hlast, List.length_drop]; omega
  have hflen : front.length % 256 = 0 := by rw [hfront, List.length_take]; omega
  have hvalue : ∀ slot ∈ storeLocks (List.replicate n .fresh) 0 front, slot.value = -1 := by
    apply storeLocks_forall
    · intro slot hslot
      rw [List.eq_of_mem_replicate hslot]
      rfl
    · intro lock hlock slot hslot
      have hmem : lock ∈ locks := List.mem_of_mem_take hlock
      rw [(hsingle lock hmem).store hslot fun hnone => absurd hnone (hrefs lock hmem)]
      exact hsingle lock hmem (hrefs lock hmem)
  have hstore : ∀ lock ∈ last, ∀ slot ∈ storeLocks (List.replicate n .fresh) 0 front,
      lock.store slot = lock := by
    intro lock hlock slot hslot
    have hmem : lock ∈ locks := List.mem_of_mem_drop hlock
    exact (hsingle lock hmem).store (hvalue slot hslot) fun hnone => absurd hnone (hrefs lock hmem)
  have hsegment := @storeLocks_segment _ last front.length hstore
    (by rw [storeLocks_length, List.length_replicate]; omega) (by omega)
  have hwhole : storeLocks (List.replicate n .fresh) 0 locks =
      storeLocks (storeLocks (List.replicate n .fresh) 0 front) front.length last := by
    rw [← Nat.zero_add front.length, ← storeLocks_append, hfront, hlast, List.take_append_drop]
  rw [hwhole, hsegment, hflen, List.take_zero, List.nil_append, ← hlen, List.take_left]

/-! Emptying the handles and filling them again. -/

def references (locks : List FdLock) : List Nat := locks.filterMap FdLock.reference

@[simp] theorem references_none (value : Int) (locks : List FdLock) :
    references (⟨none, value⟩ :: locks) = references locks := rfl

@[simp] theorem references_some (ref : Nat) (value : Int) (locks : List FdLock) :
    references (⟨some ref, value⟩ :: locks) = ref :: references locks := rfl

theorem release_sockets (locks : List FdLock) (h : Heap) :
    (release locks h).2 = sockets locks := by
  induction locks generalizing h with
  | nil => rfl
  | cons lock locks ih =>
      obtain ⟨reference, value⟩ := lock
      cases reference with
      | none => simp [release, sockets, ih]
      | some ref => exact ih _

theorem acquire_sockets (h : Heap) (locks : List FdLock) :
    sockets (acquire h locks).1 = sockets locks := by
  induction locks generalizing h with
  | nil => rfl
  | cons lock locks ih =>
      obtain ⟨reference, value⟩ := lock
      cases reference with
      | none => simp [acquire, sockets, ih]
      | some ref =>
          simp only [acquire]
          split
          · exact ih _
          · exact ih h

theorem acquire_frame {h : Heap} {locks : List FdLock} {ref : Nat} (hno : ref ∉ references locks) :
    (acquire h locks).2.userdata[ref]? = h.userdata[ref]? := by
  induction locks generalizing h with
  | nil => rfl
  | cons lock locks ih =>
      obtain ⟨reference, value⟩ := lock
      cases reference with
      | none => exact ih (by simpa using hno)
      | some ref' =>
          have hsplit : ref ≠ ref' ∧ ref ∉ references locks := by simpa using hno
          simp only [acquire]
          split
          · rw [ih hsplit.2]
            exact List.getElem?_set_ne (Ne.symm hsplit.1)
          · exact ih hsplit.2

theorem acquire_size (h : Heap) (locks : List FdLock) :
    (acquire h locks).2.userdata.length = h.userdata.length := by
  induction locks generalizing h with
  | nil => rfl
  | cons lock locks ih =>
      obtain ⟨reference, value⟩ := lock
      cases reference with
      | none => exact ih h
      | some ref =>
          simp only [acquire]
          split
          · rw [ih, List.length_set]
          · exact ih h

/-- What a handle holds in the end: its descriptor if one lock took it, none if
a second lock found it emptied by the first. -/
theorem release_acquire {h g : Heap} {locks : List FdLock} {ref : Nat} {fd : Int}
    (hhandles : ∀ ref ∈ references locks, isHandle h ref = true)
    (hfd : h.userdata[ref]? = some (.fileDescriptor fd)) (hin : ref < g.userdata.length) :
    (release (acquire h locks).1 g).1.userdata[ref]? =
      if (references locks).count ref = 0 then g.userdata[ref]?
      else if (references locks).count ref = 1 then some (.fileDescriptor fd)
      else some (.fileDescriptor (-1)) := by
  induction locks generalizing h g fd with
  | nil => rfl
  | cons lock locks ih =>
      obtain ⟨reference, value⟩ := lock
      cases reference with
      | none =>
          have hrest := ih (g := g) (by simpa using hhandles) hfd hin
          exact hrest
      | some ref' =>
          obtain ⟨fd', hfd'⟩ : ∃ fd', h.userdata[ref']? = some (.fileDescriptor fd') := by
            have hhead : isHandle h ref' = true := hhandles ref' (by simp)
            unfold isHandle at hhead
            split at hhead
            · exact ⟨_, by assumption⟩
            · cases hhead
          have hrest : ∀ r ∈ references locks, isHandle
              { h with userdata := h.userdata.set ref' (.fileDescriptor (-1)) } r = true := by
            intro r hr
            have hold := hhandles r (by simp [hr])
            by_cases heq : ref' = r
            · subst heq
              have hlt := (List.getElem?_eq_some_iff.mp hfd').1
              simp [isHandle, hlt]
            · simpa only [isHandle, List.getElem?_set_ne heq] using hold
          simp only [acquire, hfd', release, references_some, List.count_cons]
          by_cases heq : ref' = ref
          · subst heq
            have hlt := (List.getElem?_eq_some_iff.mp hfd).1
            obtain rfl : fd' = fd := by
              rw [hfd'] at hfd
              simpa using hfd
            rw [@ih _ _ (-1) hrest (by simp [hlt]) (by simpa using hin)]
            simp [hin]
          · rw [@ih _ _ fd hrest (by rw [List.getElem?_set_ne heq]; exact hfd)
              (by simpa using hin)]
            simp [heq, List.getElem?_set_ne heq]

/-! Which descriptors a message makes the encoder collect, read off the message. -/

/-- The handles (`some`) and channels (`none`) of a message in the order they
are met, up to the member it is refused at, with the members counted if it is
not. -/
structure Plan where
  targets : List (Option Nat)
  members : Option Nat
deriving DecidableEq, Repr

def Plan.sole : Option (List (Option Nat)) → Plan
  | some targets => ⟨targets, some 1⟩
  | none => ⟨[], none⟩

section Plan
variable (c : Config) (socketpair : Nat → Except Nat (Int × Int)) (h : Heap)

def planChannel (k : Nat) : Option (List (Option Nat)) :=
  match socketpair k with
  | .ok _ => some [none]
  | .error _ => none

/-- A member after `k` channels; `none` when it is refused. -/
def planMember (k : Nat) : LuaVal → Option (List (Option Nat))
  | .boolean _ | .number _ => some []
  | .string s => if s.length > 255 then none else some []
  | .userdata ref =>
      match h.userdata[ref]? with
      | some (.txChan _) | some .inbox => planChannel socketpair k
      | some (.fileDescriptor fd) => if fd = -1 then none else some [some ref]
      | _ => none
  | _ => none

def planFields (targets : List (Option Nat)) (nf : Nat) :
    List (Σ _ : LuaVal, LuaVal) → Plan
  | [] => ⟨targets, if nf = 0 then none else some nf⟩
  | ⟨.string key, value⟩ :: rest =>
      if nf = c.maxMembers then ⟨targets, none⟩
      else if key.length > 255 then ⟨targets, none⟩
      else
        match planMember socketpair h (targets.count none) value with
        | some more => planFields (targets ++ more) (nf + 1) rest
        | none => ⟨targets, none⟩
  | _ :: rest => planFields targets nf rest

def plan : LuaVal → Plan
  | .cdata _ => ⟨[], some 0⟩
  | .table ref =>
      match h.tables[ref]? with
      | some t => if t.metatable then ⟨[], none⟩ else planFields c socketpair h [] 0 t.fields.entries
      | none => ⟨[], none⟩
  | v => Plan.sole (planMember socketpair h 0 v)

/-- The plan of a whole call; arguments that are refused have an empty one. -/
def planSend (suspendAllowed : Bool) (channel msg : LuaVal) : Plan :=
  if admitsSend suspendAllowed h channel then plan c socketpair h msg else ⟨[], none⟩

end Plan

/-- The call ends, storing behind an array, or with `P`, or raising with `Q`. -/
def SendM.Ends {α : Type} (r : SendM α) (P : α → Prop) (Q : SendState → Prop) : Prop :=
  match r with
  | .ok a => P a
  | .error (e, st) => e = .overrun ∨ Q st

namespace SendM.Ends

theorem bind {α β : Type} {r : SendM α} {f : α → SendM β} {P : α → Prop} {P' : β → Prop}
    {Q : SendState → Prop} (hr : r.Ends P Q) (hf : ∀ a, P a → (f a).Ends P' Q) :
    (r >>= f).Ends P' Q := by
  cases r with
  | ok a => exact hf a hr
  | error e => exact hr

theorem mono {α : Type} {r : SendM α} {P P' : α → Prop} {Q Q' : SendState → Prop}
    (hr : r.Ends P Q) (h : ∀ a, P a → P' a) (h' : ∀ st, Q st → Q' st) : r.Ends P' Q' := by
  cases r with
  | ok a => exact h a hr
  | error e => exact hr.imp_right (h' e.2)

end SendM.Ends

/-! Stores to the message leave the descriptors alone. -/

structure SameDescriptors (st st' : SendState) : Prop where
  descriptors : st'.descriptors = st.descriptors
  size : st'.descriptorsSize = st.descriptorsSize
  exports : st'.exports = st.exports

namespace SameDescriptors
variable {c : Config} {st : SendState} {Q : SendState → Prop}

theorem refl (st : SendState) : SameDescriptors st st := ⟨rfl, rfl, rfl⟩

theorem trans {st₁ st₂ st₃ : SendState} (h : SameDescriptors st₁ st₂) (h' : SameDescriptors st₂ st₃) :
    SameDescriptors st₁ st₃ :=
  ⟨h'.descriptors.trans h.descriptors, h'.size.trans h.size, h'.exports.trans h.exports⟩

theorem writeMember (i : Nat) (w : UInt64) :
    (Ipc.writeMember c st i w).Ends (SameDescriptors st) Q := by
  unfold Ipc.writeMember
  split
  · split
    · exact ⟨rfl, rfl, rfl⟩
    · exact .inl rfl
  · exact .inl rfl

theorem pushString (s : Bytes) : (Ipc.pushString st s).Ends (SameDescriptors st) Q := by
  unfold Ipc.pushString
  split
  · exact ⟨rfl, rfl, rfl⟩
  · exact .inl rfl

theorem clearMembers : (Ipc.clearMembers c st).Ends (SameDescriptors st) Q := by
  unfold Ipc.clearMembers
  split
  · exact ⟨rfl, rfl, rfl⟩
  · exact .inl rfl

theorem padMembers (n i : Nat) : (Ipc.padMembers c n st i).Ends (SameDescriptors st) Q := by
  induction n generalizing st i with
  | zero => exact refl st
  | succ n ih =>
      apply (writeMember i _).bind
      intro st' h
      exact (ih (i + 1)).mono (fun _ h' => h.trans h') fun _ hq => hq

theorem writeFlat (w : UInt64) : (Ipc.writeFlat c st w).Ends (SameDescriptors st) Q := by
  apply (writeMember 0 _).bind
  intro st₁ h₁
  apply (writeMember 1 w).bind
  intro st₂ h₂
  have h := h₁.trans h₂
  exact ⟨h.descriptors, h.size, h.exports⟩

end SameDescriptors

/-- The slots and sockets of the operation are those of the given targets. -/
structure Tracks (c : Config) (st : SendState) (targets : List (Option Nat)) : Prop where
  stored : ∃ locks : List FdLock, locks.map FdLock.reference = targets ∧
    (∀ lock ∈ locks, lock.Single) ∧
    st.descriptors = storeLocks (List.replicate c.maxMembers .fresh) 0 locks ∧
    sockets locks = st.exports.map Export.peer
  size : st.descriptorsSize = UInt8.ofNat targets.length
  room : min targets.length 256 ≤ c.maxMembers

theorem sockets_append (locks more : List FdLock) :
    sockets (locks ++ more) = sockets locks ++ sockets more := by
  induction locks with
  | nil => rfl
  | cons lock locks ih =>
      obtain ⟨reference, value⟩ := lock
      cases reference with
      | none => simp [sockets, ih]
      | some ref => exact ih

namespace Tracks
variable {c : Config} {st : SendState} {targets : List (Option Nat)}

theorem initial (c : Config) : Tracks c (SendState.initial c) [] where
  stored := ⟨[], rfl, by simp, rfl, rfl⟩
  size := rfl
  room := Nat.zero_le _

theorem same {st' : SendState} (inv : Tracks c st targets) (h : SameDescriptors st st') :
    Tracks c st' targets where
  stored := by
    rw [h.descriptors, h.exports]
    exact inv.stored
  size := h.size.trans inv.size
  room := inv.room

theorem channels (inv : Tracks c st targets) : st.exports.length = targets.count none := by
  obtain ⟨locks, rfl, -, -, hsockets⟩ := inv.stored
  rw [← List.length_map (f := Export.peer), ← hsockets, sockets_length, countP_isOwned]

theorem pushDescriptor {exports : List Export} {st' : SendState} (inv : Tracks c st targets)
    (hsame : SameDescriptors { st with exports := exports } st') (lock : FdLock)
    (hsingle : lock.Single) (hexports : exports.map Export.peer =
      st.exports.map Export.peer ++ sockets [lock]) {Q : SendState → Prop} :
    (Ipc.pushDescriptor st' lock).Ends (Tracks c · (targets ++ [lock.reference])) Q := by
  obtain ⟨locks, htargets, hall, hstored, hsockets⟩ := inv.stored
  have hlen : locks.length = targets.length := by rw [← htargets, List.length_map]
  have hindex : st'.descriptorsSize.toNat = locks.length % 256 := by
    rw [hsame.size, inv.size, hlen]
    simp
  unfold Ipc.pushDescriptor
  split
  · rename_i hlt
    refine ⟨⟨locks ++ [lock], ?_, ?_, ?_, ?_⟩, ?_, ?_⟩
    · rw [List.map_append, htargets]
      rfl
    · intro l hl
      rcases List.mem_append.mp hl with hl | hl
      · exact hall l hl
      · rwa [List.mem_singleton.mp hl]
    · rw [storeLocks_append, hindex, hsame.descriptors, hstored, Nat.zero_add]
      rfl
    · rw [sockets_append, hsockets, hsame.exports, hexports]
    · simp [hsame.size, inv.size]
    · have hroom := inv.room
      rw [hindex, hsame.descriptors, hstored, storeLocks_length, List.length_replicate] at hlt
      rw [List.length_append, List.length_singleton]
      omega
  · exact .inl rfl

end Tracks

section Encoder
variable {c : Config} {socketpair : Nat → Except Nat (Int × Int)} {h : Heap} {st : SendState}
  {targets : List (Option Nat)}

/-- A channel is exported, announced in the message and its socket stored. -/
theorem exportChannel_ends (inv : Tracks c st targets) (target : ExportTarget)
    (store : SendState → SendM SendState)
    (hstore : ∀ st' Q, (store st').Ends (SameDescriptors st') Q) :
    SendM.Ends (do
      let (st, peer) ← exportChannel socketpair st target
      let st ← store st
      pushDescriptor st ⟨none, peer⟩)
      (fun st' => ∃ more, planChannel socketpair (targets.count none) = some more ∧
        Tracks c st' (targets ++ more))
      (fun st' => planChannel socketpair (targets.count none) = none ∧ Tracks c st' targets) := by
  rw [← inv.channels]
  unfold exportChannel planChannel
  cases hpair : socketpair st.exports.length with
  | error errno => exact .inr ⟨rfl, inv⟩
  | ok pair =>
      obtain ⟨inboxfd, peer⟩ := pair
      apply (hstore { st with exports := st.exports ++ [⟨inboxfd, peer, target⟩] } _).bind
      intro st' hsame
      apply (inv.pushDescriptor hsame ⟨none, peer⟩ (by simp [FdLock.Single])
        (by simp [sockets])).mono
      · exact fun _ inv' => ⟨_, rfl, inv'⟩
      · exact fun _ hq => hq

theorem encodeMember_ends (inv : Tracks c st targets) (nf : Nat) (v : LuaVal) :
    (encodeMember c socketpair h st nf v).Ends
      (fun st' => ∃ more, planMember socketpair h (targets.count none) v = some more ∧
        Tracks c st' (targets ++ more))
      (fun st' => planMember socketpair h (targets.count none) v = none ∧ Tracks c st' targets) := by
  have hkept : ∀ st', SameDescriptors st st' → Tracks c st' (targets ++ []) := by
    intro st' hsame
    rw [List.append_nil]
    exact inv.same hsame
  cases v with
  | boolean b =>
      apply (SameDescriptors.writeMember nf _).mono
      · exact fun st' hsame => ⟨[], rfl, hkept st' hsame⟩
      · exact fun _ hq => hq
  | number bits =>
      apply (SameDescriptors.writeMember nf _).mono
      · exact fun st' hsame => ⟨[], rfl, hkept st' hsame⟩
      · exact fun _ hq => hq
  | string s =>
      simp only [encodeMember, planMember]
      split
      · exact .inr ⟨rfl, inv⟩
      · apply (SameDescriptors.writeMember nf _).bind
        intro st₁ h₁
        apply (SameDescriptors.pushString s).mono
        · exact fun st₂ h₂ => ⟨[], rfl, hkept st₂ (h₁.trans h₂)⟩
        · exact fun _ hq => hq
  | userdata ref =>
      simp only [encodeMember, planMember]
      cases h.userdata[ref]? with
      | none => exact .inr ⟨rfl, inv⟩
      | some u =>
          cases u with
          | txChan dest =>
              exact exportChannel_ends inv (.address dest)
                (fun st => writeMember c st nf Kind.actorAddress.word)
                fun _ _ => SameDescriptors.writeMember nf _
          | inbox =>
              exact exportChannel_ends inv .ownInbox
                (fun st => writeMember c st nf Kind.actorAddress.word)
                fun _ _ => SameDescriptors.writeMember nf _
          | fileDescriptor fd =>
              simp only
              split
              · exact .inr ⟨rfl, inv⟩
              · apply (SameDescriptors.writeMember nf _).bind
                intro st₁ h₁
                apply (inv.pushDescriptor h₁ ⟨some ref, -1⟩ (fun _ => rfl) (by simp [sockets])).mono
                · exact fun _ inv' => ⟨_, rfl, inv'⟩
                · exact fun _ hq => hq
          | bare | foreign | ipcActorChan _ => exact .inr ⟨rfl, inv⟩
  | nil | table _ | function _ | thread _ | lightuserdata _ | cdata _ => exact .inr ⟨rfl, inv⟩

theorem encodeFields_ends (inv : Tracks c st targets) (nf : Nat)
    (fields : List (Σ _ : LuaVal, LuaVal)) :
    (encodeFields c socketpair h st nf fields).Ends
      (fun r => ∃ all, planFields c socketpair h targets nf fields =
        ⟨all, if r.2 = 0 then none else some r.2⟩ ∧ Tracks c r.1 all)
      (fun st' => ∃ all, planFields c socketpair h targets nf fields = ⟨all, none⟩ ∧
        Tracks c st' all) := by
  induction fields generalizing st targets nf with
  | nil => exact ⟨targets, rfl, inv⟩
  | cons field rest ih =>
      obtain ⟨key, value⟩ := field
      cases key with
      | string key =>
          simp only [encodeFields, planFields]
          split
          · exact .inr ⟨targets, rfl, inv⟩
          split
          · exact .inr ⟨targets, rfl, inv⟩
          apply (SameDescriptors.pushString key).bind
          intro st₁ h₁
          have hmember := @encodeMember_ends c socketpair h _ targets (inv.same h₁) nf value
          apply SendM.Ends.bind (hmember.mono (fun _ hp => hp) ?_)
          · rintro st₂ ⟨more, hmore, inv₂⟩
            rw [hmore]
            exact ih inv₂ (nf + 1)
          · rintro st₂ ⟨hnone, inv₂⟩
            rw [hnone]
            exact ⟨targets, rfl, inv₂⟩
      | nil | boolean _ | number _ | table _ | userdata _ | function _ | thread _
      | lightuserdata _ | cdata _ => exact ih inv nf

/-- The encoder collects what is planned, and raises if the plan says so. -/
theorem encode_ends (inv : Tracks c st []) (v : LuaVal) :
    (encode c socketpair h st v).Ends
      (fun st' => ∃ all n, plan c socketpair h v = ⟨all, some n⟩ ∧ Tracks c st' all)
      (fun st' => ∃ all, plan c socketpair h v = ⟨all, none⟩ ∧ Tracks c st' all) := by
  cases v with
  | nil | function _ | thread _ | lightuserdata _ => exact .inr ⟨[], rfl, inv⟩
  | cdata ref => exact ⟨[], 0, rfl, inv⟩
  | boolean _ | number _ =>
      apply (SameDescriptors.writeFlat _).mono
      · exact fun st' hsame => ⟨[], 1, rfl, inv.same hsame⟩
      · exact fun _ hq => hq
  | string s =>
      simp only [encode, encodeFlatString, plan, planMember]
      split
      · exact .inr ⟨[], rfl, inv⟩
      · apply (SameDescriptors.writeMember 0 _).bind
        intro st₁ h₁
        apply (SameDescriptors.writeMember 1 _).bind
        intro st₂ h₂
        apply (SameDescriptors.pushString s).bind
        intro st₃ h₃
        apply SameDescriptors.clearMembers.bind
        intro st₄ h₄
        have hsame := ((h₁.trans h₂).trans h₃).trans h₄
        exact ⟨[], 1, rfl, inv.same ⟨hsame.descriptors, hsame.size, hsame.exports⟩⟩
  | userdata ref =>
      have hexport (target : ExportTarget) : SendM.Ends (do
          let (st, peer) ← exportChannel socketpair st target
          let st ← writeFlat c st Kind.actorAddress.word
          pushDescriptor st ⟨none, peer⟩)
          (fun st' => ∃ all n, Plan.sole (planChannel socketpair 0) = ⟨all, some n⟩ ∧
            Tracks c st' all)
          (fun st' => ∃ all, Plan.sole (planChannel socketpair 0) = ⟨all, none⟩ ∧
            Tracks c st' all) := by
        apply (exportChannel_ends inv target (fun st => writeFlat c st Kind.actorAddress.word)
          fun _ _ => SameDescriptors.writeFlat _).mono
        · rintro st' ⟨more, hmore, inv'⟩
          have hplan : planChannel socketpair 0 = some more := hmore
          exact ⟨more, 1, by rw [hplan]; rfl, inv'⟩
        · rintro st' ⟨hnone, inv'⟩
          have hplan : planChannel socketpair 0 = none := hnone
          exact ⟨[], by rw [hplan]; rfl, inv'⟩
      simp only [encode, plan, planMember]
      cases h.userdata[ref]? with
      | none => exact .inr ⟨[], rfl, inv⟩
      | some u =>
          cases u with
          | txChan dest => exact hexport (.address dest)
          | inbox => exact hexport .ownInbox
          | fileDescriptor fd =>
              simp only [encodeFlatUserdata]
              split
              · exact .inr ⟨[], rfl, inv⟩
              · apply (SameDescriptors.writeFlat _).bind
                intro st₁ h₁
                apply (inv.pushDescriptor h₁ ⟨some ref, -1⟩ (fun _ => rfl) (by simp [sockets])).mono
                · exact fun _ inv' => ⟨[some ref], 1, rfl, inv'⟩
                · exact fun _ hq => hq
          | bare | foreign | ipcActorChan _ => exact .inr ⟨[], rfl, inv⟩
  | table ref =>
      simp only [encode, plan]
      cases h.tables[ref]? with
      | none => exact .inr ⟨[], rfl, inv⟩
      | some t =>
          simp only [encodeTable]
          split
          · exact .inr ⟨[], rfl, inv⟩
          · apply (encodeFields_ends inv 0 t.fields.entries).bind
            rintro ⟨st₁, nf⟩ ⟨all, hplan, inv₁⟩
            simp only at hplan inv₁ ⊢
            split
            · rename_i hzero
              rw [if_pos hzero] at hplan
              exact .inr ⟨all, hplan, inv₁⟩
            · rename_i hsome
              rw [if_neg hsome] at hplan
              apply (SameDescriptors.padMembers _ nf).bind
              intro st₂ h₂
              exact ⟨all, nf, hplan, (inv₁.same h₂).same ⟨rfl, rfl, rfl⟩⟩

end Encoder

/-! The plan only names open handles of the message. -/

section Handles
variable {c : Config} {socketpair : Nat → Except Nat (Int × Int)} {h : Heap}

def OpenHandle (h : Heap) (ref : Nat) : Prop :=
  ∃ fd, h.userdata[ref]? = some (.fileDescriptor fd) ∧ fd ≠ -1

theorem planMember_handles {k : Nat} {v : LuaVal} {more : List (Option Nat)}
    (hplan : planMember socketpair h k v = some more) {ref : Nat} (hmem : some ref ∈ more) :
    v = .userdata ref ∧ OpenHandle h ref := by
  cases v with
  | userdata ref' =>
      simp only [planMember] at hplan
      cases hu : h.userdata[ref']? with
      | none => simp [hu] at hplan
      | some u =>
          rw [hu] at hplan
          cases u with
          | txChan _ | inbox =>
              simp only [planChannel] at hplan
              split at hplan
              · obtain rfl : [none] = more := by simpa using hplan
                simp at hmem
              · cases hplan
          | fileDescriptor fd =>
              simp only at hplan
              split at hplan
              · cases hplan
              · rename_i hfd
                obtain rfl : [some ref'] = more := by simpa using hplan
                obtain rfl : ref = ref' := by simpa using hmem
                exact ⟨rfl, fd, hu, hfd⟩
          | bare | foreign | ipcActorChan _ => simp at hplan
  | boolean _ | number _ =>
      obtain rfl : [] = more := by simpa [planMember] using hplan
      simp at hmem
  | string s =>
      simp only [planMember] at hplan
      split at hplan <;> simp_all
  | nil | table _ | function _ | thread _ | lightuserdata _ | cdata _ => simp [planMember] at hplan

theorem planFields_handles {targets : List (Option Nat)} {nf : Nat}
    {fields : List (Σ _ : LuaVal, LuaVal)} {ref : Nat}
    (hmem : some ref ∈ (planFields c socketpair h targets nf fields).targets) :
    some ref ∈ targets ∨ ref ∈ fields.filterMap fieldRef ∧ OpenHandle h ref := by
  induction fields generalizing targets nf with
  | nil => exact .inl hmem
  | cons field rest ih =>
      obtain ⟨key, value⟩ := field
      have hrest : some ref ∈ targets ∨ ref ∈ rest.filterMap fieldRef ∧ OpenHandle h ref →
          some ref ∈ targets ∨
            ref ∈ (⟨key, value⟩ :: rest : List (Σ _ : LuaVal, LuaVal)).filterMap fieldRef ∧
              OpenHandle h ref := by
        rintro (hold | ⟨hlater, hopen⟩)
        · exact .inl hold
        · obtain ⟨e, he, href⟩ := List.mem_filterMap.mp hlater
          exact .inr ⟨List.mem_filterMap.mpr ⟨e, List.mem_cons_of_mem _ he, href⟩, hopen⟩
      cases key with
      | string key =>
          simp only [planFields] at hmem
          split at hmem
          · exact .inl hmem
          split at hmem
          · exact .inl hmem
          cases hmember : planMember socketpair h (targets.count none) value with
          | none =>
              rw [hmember] at hmem
              exact .inl hmem
          | some more =>
              rw [hmember] at hmem
              rcases ih hmem with hold | hlater
              · rcases List.mem_append.mp hold with hold | hnew
                · exact .inl hold
                · obtain ⟨rfl, hopen⟩ := planMember_handles hmember hnew
                  exact .inr ⟨List.mem_filterMap.mpr ⟨_, List.mem_cons_self, rfl⟩, hopen⟩
              · exact hrest (.inr hlater)
      | nil | boolean _ | number _ | table _ | userdata _ | function _ | thread _
      | lightuserdata _ | cdata _ => exact hrest (ih hmem)

theorem OpenHandle.isHandle {ref : Nat} (hopen : OpenHandle h ref) : Ipc.isHandle h ref = true := by
  obtain ⟨fd, hfd, -⟩ := hopen
  simp [Ipc.isHandle, hfd]

theorem plan_handles {msg : LuaVal} {ref : Nat}
    (hmem : some ref ∈ (plan c socketpair h msg).targets) :
    ref ∈ handlesOf h msg ∧ OpenHandle h ref := by
  have hsole : ∀ v, some ref ∈ (Plan.sole (planMember socketpair h 0 v)).targets →
      v = .userdata ref ∧ OpenHandle h ref := by
    intro v hsome
    cases hplan : planMember socketpair h 0 v with
    | none => simp [hplan, Plan.sole] at hsome
    | some more =>
        rw [hplan] at hsome
        exact planMember_handles hplan hsome
  cases msg with
  | table tref =>
      simp only [plan] at hmem
      cases ht : h.tables[tref]? with
      | none => simp [ht] at hmem
      | some t =>
          simp only [ht] at hmem
          split at hmem
          · simp at hmem
          · rcases planFields_handles hmem with hnil | ⟨hfield, hopen⟩
            · simp at hnil
            · refine ⟨List.mem_filter.mpr ⟨?_, hopen.isHandle⟩, hopen⟩
              simpa [userdataOf, ht] using hfield
  | userdata ref' =>
      obtain ⟨heq, hopen⟩ := hsole _ hmem
      obtain rfl : ref' = ref := by simpa using heq
      exact ⟨List.mem_filter.mpr ⟨by simp [userdataOf], hopen.isHandle⟩, hopen⟩
  | cdata _ => simp [plan] at hmem
  | nil | boolean _ | number _ | string _ | function _ | thread _ | lightuserdata _ =>
      exact absurd (hsole _ hmem).1 (by simp)

end Handles

/-! What is in view at the end. -/

/-- The slots the loops over the descriptors visit. -/
def SendState.view (st : SendState) : List FdLock := st.descriptors.take st.descriptorsSize.toNat

/-- The part of a plan that is still in view at the end, the counter having
wrapped as often as it does. -/
def Plan.kept (p : Plan) : List Nat :=
  (p.targets.drop (p.targets.length - p.targets.length % 256)).reduceOption

/-- Each socket has a slot in view. -/
def Plan.fits (p : Plan) : Prop := p.targets.length < 256 ∨ none ∉ p.targets

theorem references_eq (locks : List FdLock) :
    references locks = (locks.map FdLock.reference).reduceOption := by
  rw [references, List.reduceOption, List.filterMap_map]
  rfl

namespace Tracks
variable {c : Config} {st : SendState} {targets : List (Option Nat)}

theorem view_of_fits (inv : Tracks c st targets) {members : Option Nat}
    (hfits : (Plan.mk targets members).fits) :
    sockets st.view = st.exports.map Export.peer ∧
      references st.view = (Plan.mk targets members).kept := by
  obtain ⟨locks, rfl, hsingle, hstored, hsockets⟩ := inv.stored
  have hroom := inv.room
  have hview : st.view =
      (storeLocks (List.replicate c.maxMembers .fresh) 0 locks).take (locks.length % 256) := by
    rw [SendState.view, hstored, inv.size]
    simp
  rw [List.length_map] at hroom
  by_cases hfew : locks.length < 256
  · have hmod : locks.length % 256 = locks.length := Nat.mod_eq_of_lt hfew
    rw [hview, hmod, storeLocks_fresh hsingle (by omega) (by omega), List.take_left, references_eq]
    refine ⟨hsockets, ?_⟩
    simp [Plan.kept, hmod]
  · have hnone : ∀ lock ∈ locks, lock.reference ≠ none := by
      intro lock hlock hno
      rcases hfits with hlt | hall
      · simp only [List.length_map] at hlt
        omega
      · exact hall (List.mem_map.mpr ⟨lock, hlock, hno⟩)
    have howned : ∀ ls : List FdLock, (∀ lock ∈ ls, lock ∈ locks) → sockets ls = [] := by
      intro ls hls
      rw [← List.length_eq_zero_iff, sockets_length, List.countP_eq_zero]
      intro lock hlock
      simpa [FdLock.isOwned] using hnone lock (hls lock hlock)
    rw [hview, storeLocks_wrapped hsingle hnone (by omega) (by omega), ← hsockets]
    refine ⟨?_, ?_⟩
    · rw [howned locks fun _ hl => hl, howned _ fun _ hl => List.mem_of_mem_drop hl]
    · simp [Plan.kept, references_eq, List.map_drop]

theorem view_short (inv : Tracks c st targets) {members : Option Nat}
    (hfits : ¬ (Plan.mk targets members).fits) :
    (sockets st.view).length < (st.exports.map Export.peer).length := by
  obtain ⟨locks, rfl, hsingle, hstored, hsockets⟩ := inv.stored
  have hview : st.view =
      (storeLocks (List.replicate c.maxMembers .fresh) 0 locks).take (locks.length % 256) := by
    rw [SendState.view, hstored, inv.size]
    simp
  simp only [Plan.fits, List.length_map, not_or, not_lt, not_not] at hfits
  rw [hview, ← hsockets, sockets_length, sockets_length]
  apply wrapped_count c.maxMembers hfits.1
  rw [countP_isOwned]
  exact List.count_pos_iff.mpr hfits.2

end Tracks

/-! The whole call. -/

/-- Each handle of the message is as it was before the call and each socket
made for it was closed once. -/
def Settled (h : Heap) (msg : LuaVal) (e : Completion) : Prop :=
  (∀ ref ∈ handlesOf h msg, e.heap.userdata[ref]? = h.userdata[ref]?) ∧
    e.closed.Perm (e.exports.map Export.peer)

section Completion
variable (c : Config) (socketpair : Nat → Except Nat (Int × Int)) (suspendAllowed : Bool) (h : Heap)
  (channel msg : LuaVal)

/-- Between the start of the operation and its end no one else changes a handle
of the message. -/
def Undisturbed (wakes : List (Wake × Heap)) : Prop :=
  ∀ op h', ipcActorChanSend c socketpair suspendAllowed h channel msg = .ok (op, h') →
    ∀ w ∈ wakes, ∀ ref ∈ handlesOf h msg, w.2.userdata[ref]? = h'.userdata[ref]?

/-- However the call ends while the VM lives, its message is settled. -/
def SendSettles : Prop :=
  ∀ wakes e, Undisturbed c socketpair suspendAllowed h channel msg wakes →
    sendThrough c socketpair suspendAllowed h channel msg wakes = some e →
    e.ending ≠ .vmClosed → Settled h msg e

end Completion

theorem SendOp.run_cases {op : SendOp} {wakes : List (Wake × Heap)} {ending : Ending} {h' : Heap}
    {closed : List Int} (hrun : op.run wakes = some (ending, h', closed))
    (hlive : ending ≠ .vmClosed) : ∃ w ∈ wakes, release op.descriptors w.2 = (h', closed) := by
  induction wakes with
  | nil => cases hrun
  | cons w wakes ih =>
      obtain ⟨wake, g⟩ := w
      cases wake with
      | again =>
          obtain ⟨w, hw, heq⟩ := ih (by simpa [SendOp.run, SendOp.onWait] using hrun)
          exact ⟨w, List.mem_cons_of_mem _ hw, heq⟩
      | invalid =>
          obtain ⟨rfl, -⟩ : Ending.vmClosed = ending ∧ _ := by
            simpa [SendOp.run, SendOp.onWait] using hrun
          exact absurd rfl hlive
      | sent | failed _ | aborted _ =>
          obtain ⟨-, heq⟩ : _ ∧ release op.descriptors g = (h', closed) := by
            simpa [SendOp.run, SendOp.onWait] using hrun
          exact ⟨_, List.mem_cons_self, heq⟩

section Call
variable {c : Config} {socketpair : Nat → Except Nat (Int × Int)} {suspendAllowed : Bool} {h : Heap}
  {channel msg : LuaVal}

theorem planSend_handles {ref : Nat}
    (hmem : some ref ∈ (planSend c socketpair h suspendAllowed channel msg).targets) :
    ref ∈ handlesOf h msg ∧ OpenHandle h ref := by
  unfold planSend at hmem
  split at hmem
  · exact plan_handles hmem
  · simp at hmem

/-- What the start of a call leaves behind. -/
theorem ipcActorChanSend_plan :
    match ipcActorChanSend c socketpair suspendAllowed h channel msg with
    | .error (_, st) => ∃ all, planSend c socketpair h suspendAllowed channel msg = ⟨all, none⟩ ∧
        Tracks c st all
    | .ok (op, h') => ∃ st all n,
        planSend c socketpair h suspendAllowed channel msg = ⟨all, some n⟩ ∧ Tracks c st all ∧
          op.descriptors = (acquire h st.view).1 ∧ h' = (acquire h st.view).2 ∧
          op.exports = st.exports := by
  cases hadmit : admitsSend suspendAllowed h channel with
  | false =>
      obtain ⟨e, hraise, -⟩ :=
        ipcActorChanSend_refused c socketpair suspendAllowed h channel msg hadmit
      rw [hraise]
      exact ⟨[], by simp [planSend, hadmit], Tracks.initial c⟩
  | true =>
      have hplan : planSend c socketpair h suspendAllowed channel msg = plan c socketpair h msg := by
        simp [planSend, hadmit]
      have hends := @encode_ends c socketpair h _ (Tracks.initial c) msg
      rw [ipcActorChanSend_admitted c socketpair suspendAllowed h channel msg hadmit, hplan]
      cases henc : encode c socketpair h (SendState.initial c) msg with
      | ok st =>
          rw [henc] at hends
          obtain ⟨all, n, hall, inv⟩ := hends
          exact ⟨st, all, n, hall, inv, rfl, rfl, rfl⟩
      | error e =>
          rw [henc] at hends
          rcases hends with hover | ⟨all, hall, inv⟩
          · -- the encoder stays inside its arrays
            have hcdata : ∀ ref, msg ≠ .cdata ref := by
              rintro ref rfl
              cases henc
            have hsound := encode_sound c socketpair h msg hcdata
            rw [henc] at hsound
            exact absurd hover hsound
          · exact ⟨all, hall, inv⟩

theorem isHandle_descriptor {ref : Nat} (hhandle : isHandle h ref = true) :
    ∃ fd, h.userdata[ref]? = some (.fileDescriptor fd) := by
  unfold isHandle at hhandle
  split at hhandle
  · exact ⟨_, by assumption⟩
  · cases hhandle

/-- Handles taken once each are all given back. -/
theorem release_restores {locks : List FdLock} {g : Heap}
    (hopen : ∀ ref ∈ references locks, OpenHandle h ref) (hnodup : (references locks).Nodup)
    (hsame : ∀ ref ∈ handlesOf h msg, g.userdata[ref]? = (acquire h locks).2.userdata[ref]?) :
    ∀ ref ∈ handlesOf h msg, (release (acquire h locks).1 g).1.userdata[ref]? = h.userdata[ref]? := by
  intro ref hmem
  obtain ⟨fd, hfd⟩ := isHandle_descriptor (List.mem_filter.mp hmem).2
  have hlt : ref < h.userdata.length := (List.getElem?_eq_some_iff.mp hfd).1
  have hin : ref < g.userdata.length := by
    have hget := hsame ref hmem
    rw [@List.getElem?_eq_getElem _ (acquire h locks).2.userdata ref
      (by rw [acquire_size]; exact hlt)] at hget
    exact (List.getElem?_eq_some_iff.mp hget).1
  rw [release_acquire (fun ref href => (hopen ref href).isHandle) hfd hin]
  by_cases htaken : ref ∈ references locks
  · rw [List.count_eq_one_of_mem hnodup htaken, hfd]
    rfl
  · rw [List.count_eq_zero.mpr htaken, if_pos rfl, hsame ref hmem, acquire_frame htaken]

/-- A handle taken twice is not. -/
theorem release_loses {locks : List FdLock} (hopen : ∀ ref ∈ references locks, OpenHandle h ref)
    (hrep : ¬ (references locks).Nodup) :
    ∃ ref ∈ references locks,
      (release (acquire h locks).1 (acquire h locks).2).1.userdata[ref]? ≠ h.userdata[ref]? := by
  rw [List.nodup_iff_count_le_one] at hrep
  push Not at hrep
  obtain ⟨ref, htwice⟩ := hrep
  have hmem : ref ∈ references locks := List.count_pos_iff.mp (by omega)
  obtain ⟨fd, hfd, hne⟩ := hopen ref hmem
  have hin : ref < (acquire h locks).2.userdata.length := by
    rw [acquire_size]
    exact (List.getElem?_eq_some_iff.mp hfd).1
  refine ⟨ref, hmem, ?_⟩
  rw [release_acquire (fun ref href => (hopen ref href).isHandle) hfd hin, hfd,
    if_neg (by omega), if_neg (by omega)]
  simpa using Ne.symm hne

theorem sendThrough_raised {e : SendError} {st : SendState}
    (hcall : ipcActorChanSend c socketpair suspendAllowed h channel msg = .error (e, st))
    (wakes : List (Wake × Heap)) :
    sendThrough c socketpair suspendAllowed h channel msg wakes =
      some ⟨.raised e, h, sockets st.view, st.exports⟩ := by
  rw [sendThrough, hcall]
  rfl

/-- A started call whose packet is taken at once. -/
theorem sendThrough_sent {op : SendOp} {h' : Heap}
    (hcall : ipcActorChanSend c socketpair suspendAllowed h channel msg = .ok (op, h')) :
    Undisturbed c socketpair suspendAllowed h channel msg [(.sent, h')] ∧
      sendThrough c socketpair suspendAllowed h channel msg [(.sent, h')] =
        some ⟨.resumed none, (release op.descriptors h').1, (release op.descriptors h').2,
          op.exports⟩ := by
  refine ⟨?_, by rw [sendThrough, hcall]; rfl⟩
  intro op' g hcall' w hw ref _
  obtain rfl := List.mem_singleton.mp hw
  rw [hcall] at hcall'
  cases hcall'
  rfl

theorem planned_open {all : List (Option Nat)} {members : Option Nat} {st : SendState}
    (hplan : planSend c socketpair h suspendAllowed channel msg = ⟨all, members⟩)
    (inv : Tracks c st all) (hfits : (Plan.mk all members).fits) {ref : Nat}
    (hmem : ref ∈ references st.view) : ref ∈ handlesOf h msg ∧ OpenHandle h ref := by
  apply planSend_handles (c := c)
  rw [hplan]
  rw [(inv.view_of_fits hfits).2] at hmem
  exact List.mem_of_mem_drop (List.reduceOption_mem_iff.mp hmem)

/-- A socket that is out of view is never closed. -/
theorem SendSettles.fits (hsettles : SendSettles c socketpair suspendAllowed h channel msg) :
    (planSend c socketpair h suspendAllowed channel msg).fits := by
  have hstart := @ipcActorChanSend_plan c socketpair suspendAllowed h channel msg
  cases hcall : ipcActorChanSend c socketpair suspendAllowed h channel msg with
  | error r =>
      obtain ⟨e, st⟩ := r
      rw [hcall] at hstart
      obtain ⟨all, hplan, inv⟩ := hstart
      have hundisturbed : Undisturbed c socketpair suspendAllowed h channel msg [] :=
        fun _ _ _ w hw => absurd hw List.not_mem_nil
      have hclosed := (hsettles [] _ hundisturbed (sendThrough_raised hcall []) (by simp)).2
      rw [hplan]
      by_contra hfits
      exact absurd hclosed.length_eq (Nat.ne_of_lt (inv.view_short hfits))
  | ok r =>
      obtain ⟨op, h'⟩ := r
      rw [hcall] at hstart
      obtain ⟨st, all, n, hplan, inv, hdescriptors, rfl, hexports⟩ := hstart
      obtain ⟨hundisturbed, hend⟩ := sendThrough_sent hcall
      have hclosed := (hsettles _ _ hundisturbed hend (by simp)).2
      rw [hplan]
      by_contra hfits
      rw [release_sockets, hdescriptors, acquire_sockets, hexports] at hclosed
      exact absurd hclosed.length_eq (Nat.ne_of_lt (inv.view_short hfits))

/-- Nor does a handle with two slots get its descriptor back. -/
theorem SendSettles.nodup (hsettles : SendSettles c socketpair suspendAllowed h channel msg)
    (haccepted : (planSend c socketpair h suspendAllowed channel msg).members ≠ none) :
    (planSend c socketpair h suspendAllowed channel msg).kept.Nodup := by
  have hfits := hsettles.fits
  have hstart := @ipcActorChanSend_plan c socketpair suspendAllowed h channel msg
  cases hcall : ipcActorChanSend c socketpair suspendAllowed h channel msg with
  | error r =>
      rw [hcall] at hstart
      obtain ⟨all, hplan, -⟩ := hstart
      rw [hplan] at haccepted
      exact absurd rfl haccepted
  | ok r =>
      obtain ⟨op, h'⟩ := r
      rw [hcall] at hstart
      obtain ⟨st, all, n, hplan, inv, hdescriptors, rfl, -⟩ := hstart
      obtain ⟨hundisturbed, hend⟩ := sendThrough_sent hcall
      have hkept := (hsettles _ _ hundisturbed hend (by simp)).1
      rw [hplan] at hfits ⊢
      rw [← (inv.view_of_fits hfits).2]
      by_contra hrep
      obtain ⟨ref, hmem, hlost⟩ :=
        release_loses (fun ref hmem => (planned_open hplan inv hfits hmem).2) hrep
      rw [hdescriptors] at hkept
      exact hlost (hkept ref (planned_open hplan inv hfits hmem).1)

theorem sendSettles_of_plan (hfits : (planSend c socketpair h suspendAllowed channel msg).fits)
    (hnodup : (planSend c socketpair h suspendAllowed channel msg).members ≠ none →
      (planSend c socketpair h suspendAllowed channel msg).kept.Nodup) :
    SendSettles c socketpair suspendAllowed h channel msg := by
  intro wakes completion hundisturbed hend hlive
  have hstart := @ipcActorChanSend_plan c socketpair suspendAllowed h channel msg
  cases hcall : ipcActorChanSend c socketpair suspendAllowed h channel msg with
  | error r =>
      obtain ⟨e, st⟩ := r
      rw [hcall] at hstart
      obtain ⟨all, hplan, inv⟩ := hstart
      rw [hplan] at hfits
      rw [sendThrough_raised hcall, Option.some.injEq] at hend
      subst hend
      exact ⟨fun _ _ => rfl, by rw [(inv.view_of_fits hfits).1]⟩
  | ok r =>
      obtain ⟨op, h'⟩ := r
      rw [hcall] at hstart
      obtain ⟨st, all, n, hplan, inv, hdescriptors, rfl, hexports⟩ := hstart
      rw [hplan] at hfits hnodup
      rw [sendThrough, hcall, Option.map_eq_some_iff] at hend
      obtain ⟨⟨ending, h'', closed⟩, hrun, rfl⟩ := hend
      obtain ⟨w, hw, hrelease⟩ := SendOp.run_cases hrun hlive
      have hheap : (release op.descriptors w.2).1 = h'' := by rw [hrelease]
      have hlist : (release op.descriptors w.2).2 = closed := by rw [hrelease]
      constructor
      · rw [← hheap, hdescriptors]
        apply release_restores fun ref hmem => (planned_open hplan inv hfits hmem).2
        · rw [(inv.view_of_fits hfits).2]
          exact hnodup (by simp)
        · exact hundisturbed op _ hcall w hw
      · rw [← hlist, release_sockets, hdescriptors, acquire_sockets, hexports,
          (inv.view_of_fits hfits).1]

/-- The message of a call is settled however the call ends exactly when each
socket has a slot in view and, unless the call raises, no handle has two. -/
theorem send_settles_iff :
    SendSettles c socketpair suspendAllowed h channel msg ↔
      (planSend c socketpair h suspendAllowed channel msg).fits ∧
        ((planSend c socketpair h suspendAllowed channel msg).members ≠ none →
          (planSend c socketpair h suspendAllowed channel msg).kept.Nodup) := by
  constructor
  · exact fun hsettles => ⟨hsettles.fits, hsettles.nodup⟩
  · exact fun hplan => sendSettles_of_plan hplan.1 hplan.2

end Call

/-- `ch:send({a = f, b = f})`: the second lock of the handle keeps no
descriptor, and giving that back empties the handle for good. -/
theorem repeated_handle_is_lost :
    ¬ SendSettles ⟨20, by decide⟩ (fun _ => .error 24) true (twoHandles 1 1) (.userdata 0)
      (.table 0) := by
  intro hsettles
  exact absurd (hsettles.nodup (by decide)) (by decide)

end Emilua.Ipc
