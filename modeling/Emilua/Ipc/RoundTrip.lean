import Emilua.Ipc.Agreement
import Emilua.Ipc.Initialized

/-!
Sender and receiver together: what a message is once it has been encoded,
carried over the socket with its descriptors, and decoded on either path.

Descriptors are taken from the handles of the message only after it has been
encoded, and taking one empties its handle. A handle that occurs under two keys
is therefore emptied before its second descriptor is read, and the receiver is
one descriptor short. The in-process path duplicates the descriptor instead.
-/
namespace Emilua.Ipc
open Wire

/-! The messages the send path is for. -/

def SendableLeaf (h : Heap) : LuaVal → Prop
  | .boolean _ => True
  | .number bits => isSnan bits = false
  | .string s => s.length ≤ 255
  | .userdata ref =>
      match h.userdata[ref]? with
      | some (.fileDescriptor fd) => fd ≠ -1
      | some (.txChan _) | some .inbox => True
      | _ => False
  | _ => False

def Sendable (c : Config) (h : Heap) : LuaVal → Prop
  | .table ref =>
      ∃ t, h.tables[ref]? = some t ∧ t.metatable = false ∧ t.fields.entries ≠ [] ∧
        t.fields.entries.length ≤ c.maxMembers ∧
        ∀ e ∈ t.fields.entries, (∃ key, e.1 = .string key ∧ key.length ≤ 255) ∧ SendableLeaf h e.2
  | v => SendableLeaf h v

def fieldRef (e : Σ _ : LuaVal, LuaVal) : Option Nat :=
  match e.2 with
  | .userdata ref => some ref
  | _ => none

/-- The userdata of a message, in the order they are encoded. -/
def userdataOf (h : Heap) : LuaVal → List Nat
  | .userdata ref => [ref]
  | .table ref => (h.tables[ref]?).elim [] fun t => t.fields.entries.filterMap fieldRef
  | _ => []

def isHandle (h : Heap) (ref : Nat) : Bool :=
  match h.userdata[ref]? with
  | some (.fileDescriptor _) => true
  | _ => false

/-- The file descriptor handles of a message, as often as they occur in it. -/
def handlesOf (h : Heap) (msg : LuaVal) : List Nat := (userdataOf h msg).filter (isHandle h)

/-! When a received value equals the message. A channel arrives as the other
end of a socket whose first end was attached to the VM it leads to. -/

def SameLeaf (h : Heap) (exports : List Export) : LuaVal → Leaf → Prop
  | .boolean b, l => l = .boolean b
  | .number bits, l => l = .number bits
  | .string s, l => l = .string s
  | .userdata ref, l =>
      match h.userdata[ref]? with
      | some (.fileDescriptor fd) => l = .fileDescriptor fd
      | some (.txChan dest) =>
          ∃ e ∈ exports, e.target = .address dest ∧ l = .ipcActorChan e.peer
      | some .inbox => ∃ e ∈ exports, e.target = .ownInbox ∧ l = .ipcActorChan e.peer
      | _ => False
  | _, _ => False

def SameMessage (h : Heap) (exports : List Export) (msg : LuaVal) : View → Prop
  | .leaf l => ∃ l', l = some l' ∧ SameLeaf h exports msg l'
  | .table get =>
      ∃ ref t, msg = .table ref ∧ h.tables[ref]? = some t ∧
        ∀ key, Option.Rel (fun v l => ∃ l', l = some l' ∧ SameLeaf h exports v l')
          (t.fields.lookup key) (get key)

/-- The packet of a send operation has arrived whole. -/
structure Carries {c : Config} (op : SendOp) (r : Received c) : Prop where
  bytes : ∃ junk, op.payload junk = some r.wire
  control : r.control = [.rights op.fds]
  whole : r.truncated = false

/-- Both ways of receiving the packet yield the message. -/
def RoundTrips {c : Config} (h : Heap) (op : SendOp) (msg : LuaVal) (r : Received c)
    (h₁ h₂ : Heap) : Prop :=
  (∃ v h' closed, receiveDirect r h₁ = .delivered (v, h') closed ∧
    SameMessage h op.exports msg (h'.view v)) ∧
  ∃ q closed v h', receiveQueued r = .delivered q closed ∧
    deserializerClosure h₂ q = some (v, h') ∧ SameMessage h op.exports msg (h'.view v)

/-! Emptying the handles. -/

/-- The descriptor a lock stands for while no handle has been emptied. -/
def FdLock.valueIn (h : Heap) (lock : FdLock) : Int :=
  match lock.reference with
  | none => lock.value
  | some ref =>
      match h.userdata[ref]? with
      | some (.fileDescriptor fd) => fd
      | _ => lock.value

theorem FdLock.valueIn_emptied {h : Heap} {ref : Nat} {lock : FdLock}
    (hne : lock.reference ≠ some ref) :
    lock.valueIn { h with userdata := h.userdata.set ref (.fileDescriptor (-1)) } =
      lock.valueIn h := by
  obtain ⟨reference, value⟩ := lock
  cases reference with
  | none => rfl
  | some ref' =>
      have hne' : ref ≠ ref' := fun heq => hne (by rw [heq])
      simp only [FdLock.valueIn, List.getElem?_set_ne hne']

theorem acquire_length (h : Heap) (locks : List FdLock) :
    (acquire h locks).1.length = locks.length := by
  induction locks generalizing h with
  | nil => rfl
  | cons lock locks ih =>
      simp only [acquire]
      split
      · simp [ih]
      · split <;> simp [ih]

theorem acquire_values (h : Heap) (locks : List FdLock)
    (hnodup : (locks.filterMap FdLock.reference).Nodup) :
    (acquire h locks).1.map FdLock.value = locks.map (FdLock.valueIn h) := by
  induction locks generalizing h with
  | nil => rfl
  | cons lock locks ih =>
      obtain ⟨reference, value⟩ := lock
      cases reference with
      | none =>
          simp only [acquire, List.map_cons, FdLock.valueIn]
          rw [ih h (by simpa using hnodup)]
      | some ref =>
          have hsplit : ref ∉ locks.filterMap FdLock.reference ∧
              (locks.filterMap FdLock.reference).Nodup := by simpa using hnodup
          simp only [acquire, List.map_cons, FdLock.valueIn]
          split
          · rename_i fd hfd
            have hrest : locks.map (FdLock.valueIn
                { h with userdata := h.userdata.set ref (.fileDescriptor (-1)) }) =
                  locks.map (FdLock.valueIn h) := by
              apply List.map_congr_left
              intro lock hlock
              apply FdLock.valueIn_emptied
              exact fun heq => hsplit.1 (List.mem_filterMap.mpr ⟨lock, hlock, heq⟩)
            simp only [List.map_cons, ih _ hsplit.2, hrest, hfd]
          · simp only [List.map_cons, ih _ hsplit.2]

/-- A handle that is already empty when its turn comes. -/
theorem acquire_emptied {h : Heap} {ref : Nat} {locks : List FdLock}
    (hempty : h.userdata[ref]? = some (.fileDescriptor (-1)))
    (hmem : ref ∈ locks.filterMap FdLock.reference) :
    -1 ∈ (acquire h locks).1.map FdLock.value := by
  induction locks generalizing h with
  | nil => simp at hmem
  | cons lock locks ih =>
      obtain ⟨reference, value⟩ := lock
      cases reference with
      | none =>
          simp only [acquire, List.map_cons]
          exact List.mem_cons_of_mem _ (ih hempty (by simpa using hmem))
      | some ref' =>
          by_cases heq : ref' = ref
          · subst heq
            simp [acquire, hempty]
          · have hrest : ref ∈ locks.filterMap FdLock.reference := by
              simpa [Ne.symm heq] using hmem
            simp only [acquire]
            split
            · rw [List.map_cons]
              refine List.mem_cons_of_mem _ (ih ?_ hrest)
              rw [List.getElem?_set_ne heq]
              exact hempty
            · rw [List.map_cons]
              exact List.mem_cons_of_mem _ (ih hempty hrest)

theorem acquire_repeated {h : Heap} {locks : List FdLock}
    (hhandles : ∀ ref ∈ locks.filterMap FdLock.reference, isHandle h ref = true)
    (hrep : ¬ (locks.filterMap FdLock.reference).Nodup) :
    -1 ∈ (acquire h locks).1.map FdLock.value := by
  induction locks generalizing h with
  | nil => simp at hrep
  | cons lock locks ih =>
      obtain ⟨reference, value⟩ := lock
      cases reference with
      | none =>
          simp only [acquire, List.map_cons]
          exact List.mem_cons_of_mem _ (ih (by simpa using hhandles) (by simpa using hrep))
      | some ref =>
          have hhead : isHandle h ref = true := hhandles ref (by simp)
          obtain ⟨fd, hfd⟩ : ∃ fd, h.userdata[ref]? = some (.fileDescriptor fd) := by
            unfold isHandle at hhead
            split at hhead
            · exact ⟨_, by assumption⟩
            · cases hhead
          have hlt : ref < h.userdata.length := by
            by_contra hge
            simp [List.getElem?_eq_none (Nat.le_of_not_lt hge)] at hfd
          simp only [acquire, hfd, List.map_cons]
          apply List.mem_cons_of_mem
          by_cases hmem : ref ∈ locks.filterMap FdLock.reference
          · exact acquire_emptied (by simp [hlt]) hmem
          · apply ih
            · intro ref' hmem'
              have hne : ref ≠ ref' := fun heq => hmem (heq ▸ hmem')
              have hold := hhandles ref' (by simp [hmem'])
              simpa only [isHandle, List.getElem?_set_ne hne] using hold
            · intro hnodup
              exact hrep (by simpa using ⟨by simpa using hmem, hnodup⟩)

/-! What the encoder made of the message, and what its descriptors fill in. -/

theorem fillEntries_short {es : List (Bytes × Member)} {fds : List Int}
    (h : fds.length < es.countP fun e => e.2.isDescriptor) : fillEntries es fds = none := by
  induction es generalizing fds with
  | nil => simp at h
  | cons e es ih =>
      obtain ⟨key, m⟩ := e
      simp only [fillEntries]
      cases m with
      | boolean _ | number _ | string _ =>
          simp only [Member.fill, Option.bind_some]
          rw [ih (by simpa [Member.isDescriptor] using h)]
          rfl
      | fileDescriptor | actorAddress =>
          cases fds with
          | nil => rfl
          | cons fd fds =>
              simp only [Member.fill, Option.bind_some]
              rw [ih (by simpa [Member.isDescriptor] using h)]
              rfl

section Relation
variable {socketpair : Nat → Except Nat (Int × Int)} {h : Heap} {v : LuaVal} {m : Member}
  {ls : List FdLock} {xs : List Export} {fields : List (Σ _ : LuaVal, LuaVal)}
  {es : List (Bytes × Member)}

def StringKeys (fields : List (Σ _ : LuaVal, LuaVal)) : Prop :=
  ∀ e ∈ fields, ∃ key, e.1 = LuaVal.string key

theorem Encoded.fill (e : Encoded socketpair h v m ls xs) {exports : List Export}
    (hxs : xs ⊆ exports) (more : List Int) :
    ∃ l, m.fill (ls.map (FdLock.valueIn h) ++ more) = some (l, more) ∧ SameLeaf h exports v l := by
  cases e with
  | boolean b => exact ⟨.boolean b, rfl, rfl⟩
  | number bits => exact ⟨.number bits, rfl, rfl⟩
  | string s _ => exact ⟨.string s, rfl, rfl⟩
  | fileDescriptor ref fd hu hfd =>
      refine ⟨.fileDescriptor fd, ?_, by simp [SameLeaf, hu]⟩
      simp [FdLock.valueIn, hu, Member.fill]
  | address ref dest hu x hx =>
      refine ⟨.ipcActorChan x.peer, rfl, ?_⟩
      simp only [SameLeaf, hu]
      exact ⟨x, hxs (by simp), hx.1, rfl⟩
  | inbox ref hu x hx =>
      refine ⟨.ipcActorChan x.peer, rfl, ?_⟩
      simp only [SameLeaf, hu]
      exact ⟨x, hxs (by simp), hx.1, rfl⟩

/-- Filled in from the handles as they were, the members are the fields. -/
theorem EncodedFields.fill (e : EncodedFields socketpair h fields es ls xs)
    (hkeys : StringKeys fields) {exports : List Export} (hxs : xs ⊆ exports) (more : List Int) :
    ∃ lvs, fillEntries es (ls.map (FdLock.valueIn h) ++ more) = some lvs ∧
      List.Forall₂ (fun f l => f.1 = LuaVal.string l.1 ∧ SameLeaf h exports f.2 l.2) fields lvs := by
  induction e generalizing more with
  | nil => exact ⟨[], rfl, .nil⟩
  | @field key value m rest es ls ls' xs xs' hkey hvalue hrest ih =>
      obtain ⟨l, hl, hsame⟩ := hvalue.fill (fun x hx => hxs (List.mem_append_left _ hx))
        (ls'.map (FdLock.valueIn h) ++ more)
      obtain ⟨lvs, hlvs, hall⟩ := ih (fun e he => hkeys e (List.mem_cons_of_mem _ he))
        (fun x hx => hxs (List.mem_append_right _ hx)) more
      refine ⟨(key, l) :: lvs, ?_, .cons ⟨rfl, hsame⟩ hall⟩
      rw [List.map_append, List.append_assoc, fillEntries, hl, Option.bind_some, hlvs,
        Option.map_some]
  | skip hkey _ _ =>
      obtain ⟨key, hstring⟩ := hkeys _ (List.mem_cons_self)
      exact absurd hstring (hkey key)

theorem Encoded.locks_count (e : Encoded socketpair h v m ls xs) :
    ls.length = if m.isDescriptor then 1 else 0 := by
  cases e <;> rfl

theorem EncodedFields.locks_count (e : EncodedFields socketpair h fields es ls xs) :
    ls.length = es.countP fun e => e.2.isDescriptor := by
  induction e with
  | nil => rfl
  | field _ hvalue _ ih =>
      rw [List.length_append, hvalue.locks_count, ih, List.countP_cons, Nat.add_comm]
  | skip _ _ ih => exact ih

/-- Locks by reference are the handles of the value. -/
theorem Encoded.references (e : Encoded socketpair h v m ls xs) (key : LuaVal) :
    ls.length = (fieldRef ⟨key, v⟩).toList.length ∧
      ls.filterMap FdLock.reference = (fieldRef ⟨key, v⟩).toList.filter (isHandle h) := by
  cases e with
  | boolean _ | number _ | string _ _ => exact ⟨rfl, rfl⟩
  | fileDescriptor ref fd hu hfd => simp [fieldRef, isHandle, hu]
  | address ref dest hu x hx => simp [fieldRef, isHandle, hu]
  | inbox ref hu x hx => simp [fieldRef, isHandle, hu]

theorem EncodedFields.references (e : EncodedFields socketpair h fields es ls xs)
    (hkeys : StringKeys fields) :
    ls.length = (fields.filterMap fieldRef).length ∧
      ls.filterMap FdLock.reference = (fields.filterMap fieldRef).filter (isHandle h) := by
  induction e with
  | nil => exact ⟨rfl, rfl⟩
  | @field key value m rest es ls ls' xs xs' _ hvalue _ ih =>
      obtain ⟨hlen, hrefs⟩ := hvalue.references (.string key)
      obtain ⟨hlen', hrefs'⟩ := ih fun e he => hkeys e (List.mem_cons_of_mem _ he)
      have hcons : (⟨.string key, value⟩ :: rest : List (Σ _ : LuaVal, LuaVal)).filterMap fieldRef =
          (fieldRef ⟨.string key, value⟩).toList ++ rest.filterMap fieldRef := by
        rw [List.filterMap_cons]
        cases fieldRef ⟨.string key, value⟩ <;> rfl
      rw [hcons]
      refine ⟨?_, ?_⟩
      · rw [List.length_append, List.length_append, hlen, hlen']
      · rw [List.filterMap_append, List.filter_append, hrefs, hrefs']
  | skip hkey _ _ =>
      obtain ⟨key, hstring⟩ := hkeys _ (List.mem_cons_self)
      exact absurd hstring (hkey key)

/-- No lock stands for a closed descriptor. -/
theorem Encoded.valid (e : Encoded socketpair h v m ls xs)
    (hpair : ∀ k a b, socketpair k = .ok (a, b) → b ≠ -1) :
    ∀ lock ∈ ls, lock.valueIn h ≠ -1 := by
  cases e with
  | boolean _ | number _ | string _ _ => simp
  | fileDescriptor ref fd hu hfd => simpa [FdLock.valueIn, hu] using hfd
  | address _ _ _ x hx | inbox _ _ x hx =>
      obtain ⟨-, k, hk⟩ := hx
      simpa [FdLock.valueIn] using hpair k _ _ hk

theorem EncodedFields.valid (e : EncodedFields socketpair h fields es ls xs)
    (hpair : ∀ k a b, socketpair k = .ok (a, b) → b ≠ -1) :
    ∀ lock ∈ ls, lock.valueIn h ≠ -1 := by
  induction e with
  | nil => simp
  | field _ hvalue _ ih =>
      intro lock hlock
      rcases List.mem_append.mp hlock with hl | hl
      · exact hvalue.valid hpair lock hl
      · exact ih lock hl
  | skip _ _ ih => exact ih

end Relation

/-! A started operation and the packet it sends. -/

theorem sixteen_le_render (c : Config) (cts : Contents) : 16 ≤ (render c cts).length := by
  have htwo := c.two_lt
  have hwords : 2 ≤ (cts.words c).length := by
    cases cts with
    | flat m => cases m <;> simp [Contents.words]
    | table es =>
        simp only [Contents.words, List.length_append, List.length_map, List.length_replicate]
        omega
  simp only [render, List.length_append, wordsBytes_length]
  omega

section Packet
variable {c : Config} {socketpair : Nat → Except Nat (Int × Int)} {suspendAllowed : Bool}
  {h h' : Heap} {channel msg : LuaVal} {op : SendOp} {r : Received c} {cts : Contents}
  {ls : List FdLock} {xs : List Export}

/-- The operation was made from a completely encoded message. -/
structure Started (socketpair : Nat → Except Nat (Int × Int)) (c : Config) (h : Heap) (msg : LuaVal)
    (op : SendOp) (cts : Contents) (ls : List FdLock) (xs : List Export) : Prop where
  encoded : EncodedValue socketpair h msg cts ls xs
  words_le : (cts.words c).length ≤ c.maxMembers
  payload : ∀ junk, op.payload junk = some (render c cts)
  fits : (render c cts).length ≤ c.messageSize
  exports : op.exports = xs
  kept : ls.length ≤ 255 → op.descriptors = (acquire h ls).1
  wrapped : op.descriptors.length ≤ ls.length % 256

theorem started_of_send (hv : ∀ ref, msg ≠ .cdata ref)
    (hsend : ipcActorChanSend c socketpair suspendAllowed h channel msg = .ok (op, h')) :
    ∃ cts ls xs, Started socketpair c h msg op cts ls xs := by
  cases hadmit : admitsSend suspendAllowed h channel with
  | false =>
      obtain ⟨e, hraise, -⟩ :=
        ipcActorChanSend_refused c socketpair suspendAllowed h channel msg hadmit
      rw [hraise] at hsend
      cases hsend
  | true =>
      rw [ipcActorChanSend_admitted c socketpair suspendAllowed h channel msg hadmit] at hsend
      have hsound := encode_sound c socketpair h msg hv
      cases henc : encode c socketpair h (SendState.initial c) msg with
      | error e => rw [henc] at hsend; cases hsend
      | ok st =>
          rw [henc] at hsend hsound
          obtain ⟨cts, ls, xs, hmsg, hdone⟩ := hsound
          cases hsend
          have hcount : st.descriptorsSize.toNat = ls.length % 256 := by rw [hdone.count]; simp
          refine ⟨cts, ls, xs, hmsg, hdone.words_le,
            SendOp.payload_of_contents hdone.size hdone.bytes, hdone.fits, hdone.exports, ?_, ?_⟩
          · intro hfew
            simp only [hcount, Nat.mod_eq_of_lt (Nat.lt_succ_of_le hfew), hdone.kept hfew]
          · simp only [acquire_length, List.length_take, hcount]
            exact Nat.min_le_left _ _

theorem Started.exists_packet (hs : Started socketpair c h msg op cts ls xs) :
    ∃ r : Received c, Carries op r := by
  refine ⟨Received.ofWire c (render c cts) hs.fits 0 [.rights op.fds], ⟨fun _ => 0, ?_⟩, rfl, rfl⟩
  rw [hs.payload, Received.wire_ofWire]

theorem Started.read (hs : Started socketpair c h msg op cts ls xs) (hvalid : cts.Valid c)
    (hr : Carries op r) : r.read = cts.fill r.fds := by
  obtain ⟨junk, hbytes⟩ := hr.bytes
  have hwire : r.wire = render c cts := by
    rw [hs.payload junk, Option.some.injEq] at hbytes
    exact hbytes.symm
  have hnread : 16 ≤ r.nread := by
    rw [← r.wire_length, hwire]
    exact sixteen_le_render c cts
  have hlong : r.tooShort = false := by
    simp only [Received.tooShort, hr.whole, Bool.or_false, decide_eq_false_iff_not]
    omega
  rw [Received.read, hlong, hwire, parse_render c cts hvalid]
  rfl

theorem Carries.fds (hr : Carries op r) : r.fds = op.fds.filter (· ≠ -1) := by
  simp [Received.fds, hr.control]

theorem Started.fds (hs : Started socketpair c h msg op cts ls xs) (hr : Carries op r)
    (hvalid : ∀ lock ∈ ls, lock.valueIn h ≠ -1) (hfew : ls.length ≤ 255)
    (hnodup : (ls.filterMap FdLock.reference).Nodup) : r.fds = ls.map (FdLock.valueIn h) := by
  rw [hr.fds, SendOp.fds, hs.kept hfew, acquire_values h ls hnodup, List.filter_eq_self]
  intro fd hfd
  obtain ⟨lock, hlock, rfl⟩ := List.mem_map.mp hfd
  simpa using hvalid lock hlock

/-- The receiver is short of descriptors when the counter has wrapped or a
handle occurs twice. -/
theorem Started.fds_short (hs : Started socketpair c h msg op cts ls xs) (hr : Carries op r)
    (hhandles : ∀ ref ∈ ls.filterMap FdLock.reference, isHandle h ref = true)
    (hbad : ¬ ((ls.filterMap FdLock.reference).Nodup ∧ ls.length < 256)) :
    r.fds.length < ls.length := by
  have hle : r.fds.length ≤ op.descriptors.length := by
    rw [hr.fds, SendOp.fds]
    simpa using List.length_filter_le (fun fd => fd ≠ -1) (op.descriptors.map FdLock.value)
  by_cases hfew : ls.length < 256
  · have hrep : ¬ (ls.filterMap FdLock.reference).Nodup := fun hnodup => hbad ⟨hnodup, hfew⟩
    have hmem := acquire_repeated hhandles hrep
    have hlen : ((acquire h ls).1.map FdLock.value).length = ls.length := by
      rw [List.length_map, acquire_length]
    rw [hr.fds, SendOp.fds, hs.kept (by omega), ← hlen]
    exact List.length_filter_lt_length_iff_exists.mpr ⟨-1, hmem, by simp⟩
  · have hwrap := hs.wrapped
    have hmod := Nat.mod_lt ls.length (show 0 < 256 by decide)
    omega

theorem roundTrips_of_read {m : Message} (hread : r.read = some m)
    (hdirect : SameMessage h op.exports msg m.view)
    (hqueued : ∀ es, m = .table es → SameMessage h op.exports msg
      (.table fun key => (tableOf (firstEntries es) key).map some)) (h₁ h₂ : Heap) :
    RoundTrips h op msg r h₁ h₂ := by
  have hq := receiveQueued_spec r
  have hd := receiveDirect_spec r h₁
  rw [hread] at hq hd
  obtain ⟨closed, hq, -⟩ := hq
  obtain ⟨v, hv, closed', hd, hview, -⟩ := hd
  refine ⟨⟨v, hv, closed', hd, hview ▸ hdirect⟩, ?_⟩
  have hclosure := deserializerClosure_queued h₂ m
  obtain ⟨⟨v', hv'⟩, hrun, hview'⟩ := Option.map_eq_some_iff.mp hclosure
  refine ⟨m.queued, closed, v', hv', hq, hrun, ?_⟩
  simp only at hview'
  rw [hview']
  cases m with
  | flat l => exact hdirect
  | table es => exact hqueued es rfl

theorem not_roundTrips_of_unread (hread : r.read = none) (h₁ h₂ : Heap) :
    ¬ RoundTrips h op msg r h₁ h₂ := by
  rintro ⟨⟨v, hv, closed, hd, -⟩, -⟩
  have hspec := receiveDirect_spec r h₁
  rw [hread] at hspec
  obtain ⟨_, hrej, -⟩ := hspec
  rw [hd] at hrej
  cases hrej

/-! The two forms of a message. -/

theorem Encoded.member_valid {v : LuaVal} {m : Member} (e : Encoded socketpair h v m ls xs)
    (hv : SendableLeaf h v) : m.Valid := by
  cases e with
  | number bits => exact hv
  | string s hs => exact hs
  | boolean _ | fileDescriptor _ _ _ _ | address _ _ _ _ _ | inbox _ _ _ _ => trivial

theorem EncodedFields.entries_valid {fields : List (Σ _ : LuaVal, LuaVal)}
    {es : List (Bytes × Member)} (e : EncodedFields socketpair h fields es ls xs)
    (hfields : ∀ f ∈ fields, SendableLeaf h f.2) : ∀ e ∈ es, e.1.length ≤ 255 ∧ e.2.Valid := by
  induction e with
  | nil => simp
  | field hkey hvalue _ ih =>
      intro e he
      rcases List.mem_cons.mp he with rfl | he
      · exact ⟨hkey, hvalue.member_valid (hfields _ (List.mem_cons_self))⟩
      · exact ih (fun f hf => hfields f (List.mem_cons_of_mem _ hf)) e he
  | skip _ _ ih => exact ih fun f hf => hfields f (List.mem_cons_of_mem _ hf)

theorem flat_roundTrips (hpair : ∀ k a b, socketpair k = .ok (a, b) → b ≠ -1) {m : Member}
    (hs : Started socketpair c h msg op (.flat m) ls xs) (hv : Encoded socketpair h msg m ls xs)
    (hvalid : m.Valid) (hr : Carries op r) (h₁ h₂ : Heap) : RoundTrips h op msg r h₁ h₂ := by
  have hone := hv.locks_length
  have hnodup : (ls.filterMap FdLock.reference).Nodup := by
    rw [(hv.references .nil).2]
    exact (Option.toList_nodup _).filter _
  have hfds := hs.fds hr (hv.valid hpair) (by omega) hnodup
  have hread := hs.read hvalid hr
  obtain ⟨l, hfill, hsame⟩ := hv.fill (show _ ⊆ op.exports by rw [hs.exports]; simp) []
  have hcount := hv.locks_count
  have hread' : r.read = some (.flat l) := by
    rw [List.append_nil] at hfill
    rw [hread, Contents.fill, hfds, hfill, if_neg]
    · rfl
    · rintro ⟨hdesc, hlen⟩
      rw [hdesc] at hcount
      simp [hcount] at hlen
  exact roundTrips_of_read hread' ⟨l, rfl, hsame⟩ (by simp) h₁ h₂

theorem lookup_forall₂ {R : LuaVal → Leaf → Prop} {fields : List (Σ _ : LuaVal, LuaVal)}
    {lvs : List (Bytes × Leaf)}
    (hall : List.Forall₂ (fun f l => f.1 = LuaVal.string l.1 ∧ R f.2 l.2) fields lvs) (k : Bytes) :
    Option.Rel R (fields.dlookup (.string k)) (lvs.lookup k) := by
  induction hall with
  | nil => exact .none
  | @cons f l fields lvs hf _ ih =>
      obtain ⟨key, v⟩ := f
      obtain ⟨k', l⟩ := l
      obtain ⟨rfl, hv⟩ := hf
      rw [lookup_cons_eq]
      by_cases hk : k = k'
      · subst hk
        simp only [List.dlookup_cons_eq, if_true]
        exact .some hv
      · rw [if_neg hk, List.dlookup_cons_ne _ _ (by simpa using hk)]
        exact ih

theorem dlookup_not_string {fields : List (Σ _ : LuaVal, LuaVal)} (hkeys : StringKeys fields)
    {key : LuaVal} (hkey : ∀ k, key ≠ .string k) : fields.dlookup key = none := by
  rw [List.dlookup_eq_none]
  intro hmem
  obtain ⟨v, hv⟩ := List.exists_of_mem_keys hmem
  obtain ⟨k, hk⟩ := hkeys _ hv
  exact hkey k hk

theorem keys_nodup_of_forall₂ {R : LuaVal → Leaf → Prop} {fields : List (Σ _ : LuaVal, LuaVal)}
    {lvs : List (Bytes × Leaf)}
    (hall : List.Forall₂ (fun f l => f.1 = LuaVal.string l.1 ∧ R f.2 l.2) fields lvs)
    (hnodup : fields.NodupKeys) : (lvs.map Prod.fst).Nodup := by
  have hkeys : fields.keys = (lvs.map Prod.fst).map LuaVal.string := by
    clear hnodup
    induction hall with
    | nil => rfl
    | cons hf _ ih => simp only [List.keys, List.map_cons] at ih ⊢; rw [hf.1, ih]
  rw [List.NodupKeys, hkeys] at hnodup
  exact hnodup.of_map _

/-- A table of leaves that the fields correspond to one by one is the message,
whichever of its entries wins. -/
theorem sameMessage_table {ref : Nat} {t : LuaTable} {exports : List Export}
    {lvs : List (Bytes × Leaf)} {get : LuaVal → Option Leaf} (ht : h.tables[ref]? = some t)
    (hkeys : StringKeys t.fields.entries)
    (hall : List.Forall₂ (fun f l => f.1 = LuaVal.string l.1 ∧ SameLeaf h exports f.2 l.2)
      t.fields.entries lvs)
    (hget : ∀ k, get (.string k) = lvs.lookup k)
    (hnone : ∀ key, (∀ k, key ≠ .string k) → get key = none) :
    SameMessage h exports (.table ref) (.table fun key => (get key).map some) := by
  refine ⟨ref, t, rfl, ht, fun key => ?_⟩
  show Option.Rel _ (t.fields.entries.dlookup key) ((get key).map some)
  by_cases hstring : ∃ k, key = .string k
  · obtain ⟨k, rfl⟩ := hstring
    have hrel := lookup_forall₂ hall k
    rw [hget]
    generalize t.fields.entries.dlookup (.string k) = field, lvs.lookup k = leaf at hrel ⊢
    cases hrel with
    | some hv => exact .some ⟨_, rfl, hv⟩
    | none => exact .none
  · have hkey : ∀ k, key ≠ .string k := fun k hk => hstring ⟨k, hk⟩
    rw [hnone key hkey, dlookup_not_string hkeys hkey]
    exact .none

theorem tableOf_not_string (es : List (Bytes × Leaf)) (key : LuaVal) (h : ∀ k, key ≠ .string k) :
    tableOf es key = none := by
  cases key with
  | string k => exact absurd rfl (h k)
  | nil | boolean _ | number _ | table _ | userdata _ | function _ | thread _
  | lightuserdata _ | cdata _ => rfl

theorem table_roundTrips_iff (hpair : ∀ k a b, socketpair k = .ok (a, b) → b ≠ -1) {ref : Nat}
    {t : LuaTable} {es : List (Bytes × Member)}
    (hs : Started socketpair c h (.table ref) op (.table es) ls xs)
    (ht : h.tables[ref]? = some t) (hfields : EncodedFields socketpair h t.fields.entries es ls xs)
    (hkeys : StringKeys t.fields.entries) (hvalid : (Contents.table es).Valid c)
    (hr : Carries op r) (h₁ h₂ : Heap) :
    RoundTrips h op (.table ref) r h₁ h₂ ↔
      (ls.filterMap FdLock.reference).Nodup ∧ ls.length < 256 := by
  have hread := hs.read hvalid hr
  constructor
  · intro hround
    by_contra hbad
    have hhandles : ∀ ref ∈ ls.filterMap FdLock.reference, isHandle h ref = true := by
      intro ref hmem
      rw [(hfields.references hkeys).2] at hmem
      exact (List.mem_filter.mp hmem).2
    have hshort := hs.fds_short hr hhandles hbad
    rw [hfields.locks_count] at hshort
    refine not_roundTrips_of_unread ?_ h₁ h₂ hround
    rw [hread, Contents.fill, fillEntries_short hshort]
    rfl
  · rintro ⟨hnodup, hfew⟩
    have hfds := hs.fds hr (hfields.valid hpair) (by omega) hnodup
    obtain ⟨lvs, hfill, hall⟩ := hfields.fill hkeys
      (show _ ⊆ op.exports by rw [hs.exports]; simp) []
    have hread' : r.read = some (.table lvs) := by
      rw [List.append_nil] at hfill
      rw [hread, Contents.fill, hfds, hfill, Option.map_some]
    have hkeysnd := keys_nodup_of_forall₂ hall t.fields.nodupKeys
    refine roundTrips_of_read hread' ?_ ?_ h₁ h₂
    · exact sameMessage_table ht hkeys hall (fun k => lookup_reverse hkeysnd k)
        (tableOf_not_string lvs)
    · rintro _ ⟨⟩
      exact sameMessage_table ht hkeys hall (fun k => tableOf_firstEntries lvs k)
        (tableOf_not_string (firstEntries lvs))

theorem Started.roundTrips_iff (hs : Started socketpair c h msg op cts ls xs)
    (hpair : ∀ k a b, socketpair k = .ok (a, b) → b ≠ -1) (hmsg : Sendable c h msg)
    (hr : Carries op r) (h₁ h₂ : Heap) :
    RoundTrips h op msg r h₁ h₂ ↔ (handlesOf h msg).Nodup ∧ (userdataOf h msg).length < 256 := by
  have henc := hs.encoded
  cases henc with
  | @flat v m _ _ hv =>
      have hplain : SendableLeaf h msg ∧ userdataOf h msg = (fieldRef ⟨.nil, msg⟩).toList := by
        cases hv <;> exact ⟨hmsg, rfl⟩
      have hround := flat_roundTrips hpair hs hv (hv.member_valid hplain.1) hr h₁ h₂
      refine ⟨fun _ => ?_, fun _ => hround⟩
      rw [handlesOf, hplain.2]
      refine ⟨(Option.toList_nodup _).filter _, ?_⟩
      cases fieldRef ⟨.nil, msg⟩ <;> simp
  | @table ref t es _ _ ht hmeta hne hfields =>
      obtain ⟨t', ht', -, -, -, hall⟩ := hmsg
      obtain rfl : t' = t := by simpa [ht'] using ht
      have hkeys : StringKeys t'.fields.entries := fun e he =>
        ⟨_, (hall e he).1.choose_spec.1⟩
      have hle : es.length ≤ c.maxMembers := by
        have := hs.words_le
        simp only [Contents.words, List.length_append, List.length_map, List.length_replicate] at this
        omega
      have hvalid : (Contents.table es).Valid c :=
        ⟨hne, hle, hfields.entries_valid fun f hf => (hall f hf).2⟩
      rw [table_roundTrips_iff hpair hs ht hfields hkeys hvalid hr h₁ h₂]
      obtain ⟨hlen, hrefs⟩ := hfields.references hkeys
      have huserdata : userdataOf h (.table ref) = t'.fields.entries.filterMap fieldRef := by
        simp [userdataOf, ht]
      rw [handlesOf, huserdata, hlen, hrefs]

theorem Sendable.not_cdata (hmsg : Sendable c h msg) (ref : Nat) : msg ≠ .cdata ref := by
  rintro rfl
  exact hmsg

end Packet

/-- A message arrives as it was sent, on either path, exactly when no handle
occurs in it twice and its descriptors can be counted in a byte. -/
theorem round_trip_iff {c : Config} {socketpair : Nat → Except Nat (Int × Int)}
    (hpair : ∀ k a b, socketpair k = .ok (a, b) → b ≠ -1) {suspendAllowed : Bool} {h h' : Heap}
    {channel msg : LuaVal} {op : SendOp} (hmsg : Sendable c h msg)
    (hsend : ipcActorChanSend c socketpair suspendAllowed h channel msg = .ok (op, h'))
    {r : Received c} (hr : Carries op r) (h₁ h₂ : Heap) :
    RoundTrips h op msg r h₁ h₂ ↔ (handlesOf h msg).Nodup ∧ (userdataOf h msg).length < 256 := by
  obtain ⟨cts, ls, xs, hs⟩ := started_of_send hmsg.not_cdata hsend
  exact hs.roundTrips_iff hpair hmsg hr h₁ h₂

/-- `{a = f, b = g}` next to an open channel, for two handles `f` and `g`. -/
def twoHandles (f g : Nat) : Heap :=
  ⟨[⟨false, ((∅ : AList fun _ : LuaVal => LuaVal).insert (.string [98]) (.userdata g)).insert
    (.string [97]) (.userdata f)⟩], [.ipcActorChan 5, .fileDescriptor 7, .fileDescriptor 8]⟩

def sendTwoHandles (f g : Nat) : SendM (SendOp × Heap) :=
  ipcActorChanSend ⟨20, Config.two_lt_twenty⟩ (fun _ => .error 24) true (twoHandles f g) (.userdata 0) (.table 0)

theorem sendTwoHandles_ok {f g : Nat} (hok : (sendTwoHandles f g).isOk = true) :
    ∃ op h', sendTwoHandles f g = .ok (op, h') := by
  cases hsend : sendTwoHandles f g with
  | ok a => exact ⟨a.1, a.2, rfl⟩
  | error e => rw [hsend] at hok; cases hok

theorem twoHandles_sendable {f g : Nat} (hf : f = 1 ∨ f = 2) (hg : g = 1 ∨ g = 2) :
    Sendable ⟨20, by decide⟩ (twoHandles f g) (.table 0) := by
  refine ⟨_, rfl, rfl, by simp, by simp, ?_⟩
  rcases hf with rfl | rfl <;> rcases hg with rfl | rfl <;>
    simp [twoHandles, SendableLeaf]

theorem round_trip_two_handles :
    ∃ op h', sendTwoHandles 1 2 = .ok (op, h') ∧ ∃ r : Received ⟨20, by decide⟩, Carries op r ∧
      RoundTrips (twoHandles 1 2) op (.table 0) r Heap.empty Heap.empty := by
  obtain ⟨op, h', hsend⟩ := sendTwoHandles_ok (f := 1) (g := 2) (by decide +kernel)
  have hmsg := twoHandles_sendable (.inl rfl) (.inr rfl)
  obtain ⟨cts, ls, xs, hs⟩ := started_of_send hmsg.not_cdata hsend
  obtain ⟨r, hr⟩ := hs.exists_packet
  refine ⟨op, h', hsend, r, hr, ?_⟩
  exact (round_trip_iff (by simp) hmsg hsend hr Heap.empty Heap.empty).mpr (by decide)

/-- `ch:send({a = f, b = f})` is accepted, but neither path delivers it. -/
theorem repeated_handle_does_not_arrive :
    ∃ op h', sendTwoHandles 1 1 = .ok (op, h') ∧ Sendable ⟨20, by decide⟩ (twoHandles 1 1) (.table 0) ∧
      ∃ r : Received ⟨20, by decide⟩, Carries op r ∧
        ¬ RoundTrips (twoHandles 1 1) op (.table 0) r Heap.empty Heap.empty := by
  obtain ⟨op, h', hsend⟩ := sendTwoHandles_ok (f := 1) (g := 1) (by decide +kernel)
  have hmsg := twoHandles_sendable (.inl rfl) (.inl rfl)
  obtain ⟨cts, ls, xs, hs⟩ := started_of_send hmsg.not_cdata hsend
  obtain ⟨r, hr⟩ := hs.exists_packet
  refine ⟨op, h', hsend, hmsg, r, hr, ?_⟩
  rw [hs.roundTrips_iff (by simp) hmsg hr]
  decide

end Emilua.Ipc
