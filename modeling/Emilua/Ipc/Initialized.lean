import Emilua.Ipc.Encoding

/-!
What leaves the process: the transmitted prefix of a message is written in full
before the send and is determined by the message alone. The exception is a
`cdata` value, for which the outer type switch of `ipc_actor_chan_send` has no
label: the operation starts with neither message nor size ever written.
-/
namespace Emilua.Ipc
open Wire

def memberOf (h : Heap) : LuaVal → Option Member
  | .boolean b => some (.boolean b)
  | .number bits => some (.number bits)
  | .string s => if s.length ≤ 255 then some (.string s) else none
  | .userdata ref =>
      match h.userdata[ref]? with
      | some (.fileDescriptor _) => some .fileDescriptor
      | some (.txChan _) | some .inbox => some .actorAddress
      | _ => none
  | _ => none

def entriesOf (h : Heap) : List (Σ _ : LuaVal, LuaVal) → Option (List (Bytes × Member))
  | [] => some []
  | ⟨.string key, value⟩ :: rest =>
      if key.length ≤ 255 then
        (memberOf h value).bind fun m => (entriesOf h rest).map fun es => (key, m) :: es
      else none
  | _ :: rest => entriesOf h rest

/-- The message a Lua value stands for, when it has one and it fits. -/
def contentsOf (c : Config) (h : Heap) : LuaVal → Option Contents
  | .table ref =>
      (h.tables[ref]?).bind fun t => (entriesOf h t.fields.entries).bind fun es =>
        if es.length ≤ c.maxMembers then some (.table es) else none
  | v => (memberOf h v).map .flat

section Relation
variable {socketpair : Nat → Except Nat (Int × Int)} {h : Heap} {v : LuaVal} {ls : List FdLock}
  {xs : List Export}

theorem Encoded.memberOf_eq {m : Member} (e : Encoded socketpair h v m ls xs) :
    memberOf h v = some m := by
  cases e with
  | boolean _ | number _ => rfl
  | string s hs => simp [memberOf, hs]
  | fileDescriptor ref fd hu _ => simp [memberOf, hu]
  | address ref dest hu _ _ => simp [memberOf, hu]
  | inbox ref hu _ _ => simp [memberOf, hu]

theorem EncodedFields.entriesOf_eq {fields es} (e : EncodedFields socketpair h fields es ls xs) :
    entriesOf h fields = some es := by
  induction e with
  | nil => rfl
  | field hkey hvalue _ ih => simp [entriesOf, hkey, hvalue.memberOf_eq, ih]
  | @skip key _ _ _ _ _ hkey _ ih =>
      cases key with
      | string s => exact absurd rfl (hkey s)
      | nil | boolean _ | number _ | table _ | userdata _ | function _ | thread _
      | lightuserdata _ | cdata _ => exact ih

theorem EncodedValue.contentsOf_eq {c : Config} {cts : Contents}
    (e : EncodedValue socketpair h v cts ls xs) (hwords : (cts.words c).length ≤ c.maxMembers) :
    contentsOf c h v = some cts := by
  cases e with
  | flat hv =>
      have hm := hv.memberOf_eq
      cases hv <;> simp [contentsOf, hm]
  | @table ref t es _ _ ht _ _ hfields =>
      have hle : es.length ≤ c.maxMembers := by
        simp only [Contents.words, List.length_append, List.length_map,
          List.length_replicate] at hwords
        omega
      simp [contentsOf, ht, hfields.entriesOf_eq, hle]

end Relation

theorem render_length_pos (c : Config) (cts : Contents) (h : cts ≠ .table []) :
    0 < (render c cts).length := by
  have hwords : 0 < (cts.words c).length := by
    cases cts with
    | flat m => cases m <;> simp [Contents.words]
    | table es =>
        have hpos : 0 < es.length := List.length_pos_of_ne_nil fun hnil => h (by rw [hnil])
        simp only [Contents.words, List.length_append, List.length_map]
        omega
  simp only [render, List.length_append, wordsBytes_length]
  omega

theorem SendOp.payload_of_contents {op : SendOp} {bs : Bytes}
    (hsize : op.messageSize = some bs.length) (hbytes : op.message.contents bs.length = some bs)
    (junk : Nat → UInt8) : op.payload junk = some bs := by
  rw [SendOp.payload, hsize, Option.map_some]
  congr 1
  apply List.ext_getElem
  · simp
  · intro i _ hi
    simp [Memory.getElem?_of_contents hbytes hi]

/-- What the send path owes its peer. Either the call raises and nothing is
sent, without any store behind an array; or the whole transmitted prefix has
been stored, is the rendering of the message and fits the message object. -/
def SendClean (c : Config) (h : Heap) (msg : LuaVal)
    (r : Except (SendError × SendState) (SendOp × Heap)) : Prop :=
  match r with
  | .error (e, _) => e ≠ .overrun
  | .ok (op, _) =>
      ∃ cts size, contentsOf c h msg = some cts ∧ op.messageSize = some size ∧
        0 < size ∧ size ≤ c.messageSize ∧
        (∀ i < size, ∃ b, op.message[i]? = some (some b)) ∧
        ∀ junk, op.payload junk = some (render c cts)

/-- The checks that come before the message is looked at. -/
def admitsSend (suspendAllowed : Bool) (h : Heap) : LuaVal → Bool
  | .userdata ref =>
      match h.userdata[ref]? with
      | some (.ipcActorChan fd) => suspendAllowed && fd != -1
      | _ => false
  | _ => false

theorem ipcActorChanSend_refused (c : Config) (socketpair : Nat → Except Nat (Int × Int))
    (suspendAllowed : Bool) (h : Heap) (channel msg : LuaVal)
    (hno : admitsSend suspendAllowed h channel = false) :
    ∃ e, ipcActorChanSend c socketpair suspendAllowed h channel msg =
      .error (e, SendState.initial c) ∧ e ≠ .overrun := by
  unfold ipcActorChanSend
  split
  · exact ⟨_, rfl, by simp⟩
  · split
    · split
      · split
        · exact ⟨_, rfl, by simp⟩
        · simp_all [admitsSend]
      · exact ⟨_, rfl, by simp⟩
    · exact ⟨_, rfl, by simp⟩

theorem ipcActorChanSend_admitted (c : Config) (socketpair : Nat → Except Nat (Int × Int))
    (suspendAllowed : Bool) (h : Heap) (channel msg : LuaVal)
    (hyes : admitsSend suspendAllowed h channel = true) :
    ipcActorChanSend c socketpair suspendAllowed h channel msg =
      (encode c socketpair h (SendState.initial c) msg).map fun st =>
        (⟨st.message, st.messageSize,
          (acquire h (st.descriptors.take st.descriptorsSize.toNat)).1, st.exports⟩,
          (acquire h (st.descriptors.take st.descriptorsSize.toNat)).2) := by
  cases channel with
  | userdata ref =>
      simp only [admitsSend] at hyes
      split at hyes
      · rename_i fd hu
        simp only [Bool.and_eq_true, bne_iff_ne] at hyes
        simp only [ipcActorChanSend, hyes.1, Bool.true_eq_false, if_false, hu, hyes.2]
        cases encode c socketpair h (SendState.initial c) msg <;> rfl
      · cases hyes
  | nil | boolean _ | number _ | string _ | table _ | function _ | thread _ | lightuserdata _
  | cdata _ => cases hyes

/-- The transmitted bytes are written in full and depend on the message alone,
for every call that does not get as far as a `cdata` message. -/
theorem ipcActorChanSend_clean_iff (c : Config) (socketpair : Nat → Except Nat (Int × Int))
    (suspendAllowed : Bool) (h : Heap) (channel msg : LuaVal) :
    SendClean c h msg (ipcActorChanSend c socketpair suspendAllowed h channel msg) ↔
      (admitsSend suspendAllowed h channel = true → ∀ ref, msg ≠ .cdata ref) := by
  cases hadmit : admitsSend suspendAllowed h channel with
  | false =>
      obtain ⟨e, hraise, hne⟩ :=
        ipcActorChanSend_refused c socketpair suspendAllowed h channel msg hadmit
      simp [hraise, SendClean, hne]
  | true =>
      rw [ipcActorChanSend_admitted c socketpair suspendAllowed h channel msg hadmit]
      constructor
      · rintro hclean - ref rfl
        obtain ⟨_, _, _, hsize, _⟩ := hclean
        simp [SendState.initial] at hsize
      · intro hv
        have hsound := encode_sound c socketpair h msg (hv rfl)
        cases henc : encode c socketpair h (SendState.initial c) msg with
        | error e =>
            rw [henc] at hsound
            exact hsound
        | ok st =>
            rw [henc] at hsound
            obtain ⟨cts, ls, xs, hmsg, hdone⟩ := hsound
            have hne : cts ≠ .table [] := by
              cases hmsg with
              | flat _ => simp
              | table _ _ hne _ => simpa using hne
            refine ⟨cts, (render c cts).length, hmsg.contentsOf_eq hdone.words_le, hdone.size,
              render_length_pos c cts hne, hdone.fits, ?_, ?_⟩
            · intro i hi
              exact ⟨_, Memory.getElem?_of_contents hdone.bytes hi⟩
            · exact SendOp.payload_of_contents hdone.size hdone.bytes

/-- `ch:send(ffi.new('int'))` on an open channel: the operation starts although
no byte of its message and not even its size was ever written. -/
theorem cdata_starts_unwritten_send :
    ¬ SendClean ⟨20, by decide⟩ ⟨[], [.ipcActorChan 5]⟩ (.cdata 0)
      (ipcActorChanSend ⟨20, by decide⟩ (fun _ => .error 24) true ⟨[], [.ipcActorChan 5]⟩
        (.userdata 0) (.cdata 0)) := by
  rintro ⟨_, _, _, hsize, _⟩
  cases hsize

end Emilua.Ipc
