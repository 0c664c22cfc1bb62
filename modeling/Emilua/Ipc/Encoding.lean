import Emilua.Ipc.Send

/-!
What the encoder has stored after any number of its writes. `Encoding` says
that the message holds a prefix of the member array and a prefix of the string
pool and nothing else, and that the descriptors collected so far are the given
locks; each write extends one of the prefixes. Between the two prefixes and
behind the second one lies memory that was never written.
-/
namespace Emilua.Ipc
open Wire

def layout (c : Config) (ws : List UInt64) (ss : List Bytes) : Memory :=
  (wordsBytes ws).map some ++ (List.replicate (c.membersSize - 8 * ws.length) none ++
    ((frames ss).map some ++ List.replicate (c.strbufSize - (frames ss).length) none))

/-- The socket pair was made by the system for this target. -/
def Export.Made (e : Export) (socketpair : Nat → Except Nat (Int × Int)) (target : ExportTarget) :
    Prop :=
  e.target = target ∧ ∃ k, socketpair k = .ok (e.inboxfd, e.peer)

/-- The descriptor slots after `locks` were stored from index `i` on. -/
def storeLocks : List FdLock → Nat → List FdLock → List FdLock
  | slots, _, [] => slots
  | slots, i, lock :: locks => storeLocks (slots.modify (i % 256) (FdLock.store lock)) (i + 1) locks

theorem storeLocks_append (slots : List FdLock) (i : Nat) (locks more : List FdLock) :
    storeLocks slots i (locks ++ more) =
      storeLocks (storeLocks slots i locks) (i + locks.length) more := by
  induction locks generalizing slots i with
  | nil => rfl
  | cons lock locks ih =>
      rw [List.cons_append, storeLocks, ih, storeLocks, List.length_cons, Nat.add_assoc,
        Nat.add_comm 1]

theorem storeLocks_length (slots : List FdLock) (i : Nat) (locks : List FdLock) :
    (storeLocks slots i locks).length = slots.length := by
  induction locks generalizing slots i with
  | nil => rfl
  | cons lock locks ih => rw [storeLocks, ih, List.length_modify]

/-- A run of stores that does not wrap fills consecutive slots. -/
theorem storeLocks_segment {slots locks : List FdLock} {i : Nat}
    (hstore : ∀ lock ∈ locks, ∀ slot ∈ slots, lock.store slot = lock)
    (hfit : i % 256 + locks.length ≤ slots.length) (hfew : i % 256 + locks.length ≤ 256) :
    storeLocks slots i locks =
      slots.take (i % 256) ++ (locks ++ slots.drop (i % 256 + locks.length)) := by
  induction locks using List.reverseRecOn with
  | nil => simp [storeLocks]
  | append_singleton locks lock ih =>
      rw [List.length_append, List.length_singleton] at hfit hfew
      have hprev := ih (fun l hl => hstore l (List.mem_append_left _ hl)) (by omega) (by omega)
      have hlt : i % 256 + locks.length < slots.length := by omega
      have hindex : (i + locks.length) % 256 = (slots.take (i % 256) ++ locks).length := by
        rw [List.length_append, List.length_take]
        omega
      have hlast : lock.store (slots[i % 256 + locks.length]) = lock :=
        hstore lock (by simp) _ (List.getElem_mem hlt)
      rw [storeLocks_append, hprev, storeLocks, storeLocks, hindex, ← List.append_assoc,
        List.modify_eq_take_drop, List.take_left, List.drop_left, List.drop_eq_getElem_cons hlt,
        List.modifyHead_cons, hlast, List.length_append, List.length_singleton]
      simp [Nat.add_assoc]

/-- A slot of a new operation, and a lock as such a slot keeps it. -/
def FdLock.fresh : FdLock := ⟨none, -1⟩

def FdLock.Single (lock : FdLock) : Prop := lock.reference ≠ none → lock.value = -1

theorem FdLock.Single.store {lock slot : FdLock} (h : lock.Single) (hvalue : slot.value = -1)
    (href : lock.reference = none → slot.reference = none) : lock.store slot = lock := by
  obtain ⟨reference, value⟩ := lock
  obtain ⟨reference', value'⟩ := slot
  obtain rfl : value' = -1 := hvalue
  cases reference with
  | none =>
      obtain rfl : reference' = none := href rfl
      rfl
  | some ref =>
      obtain rfl : value = -1 := h (by simp)
      rfl

/-- Before the counter wraps every lock has a slot of its own. -/
theorem storeLocks_fresh {locks : List FdLock} {n : Nat} (hsingle : ∀ lock ∈ locks, lock.Single)
    (hlen : locks.length ≤ n) (hfew : locks.length ≤ 256) :
    storeLocks (List.replicate n .fresh) 0 locks =
      locks ++ List.replicate (n - locks.length) .fresh := by
  have hstore : ∀ lock ∈ locks, ∀ slot ∈ List.replicate n FdLock.fresh, lock.store slot = lock := by
    intro lock hlock slot hslot
    obtain rfl := List.eq_of_mem_replicate hslot
    exact (hsingle lock hlock).store rfl fun _ => rfl
  rw [storeLocks_segment hstore (by simpa using hlen) (by simpa using hfew)]
  simp

structure Encoding (c : Config) (st : SendState) (ws : List UInt64) (ss : List Bytes)
    (locks : List FdLock) (exps : List Export) : Prop where
  message : st.message = layout c ws ss
  words_le : ws.length ≤ c.maxMembers
  pool_le : (frames ss).length ≤ c.strbufSize
  strit : st.strit = c.membersSize + (frames ss).length
  exports : st.exports = exps
  stored : st.descriptors = storeLocks (List.replicate c.maxMembers .fresh) 0 locks
  single : ∀ lock ∈ locks, lock.Single
  count : locks.length ≤ ws.length
  size : st.descriptorsSize = UInt8.ofNat locks.length

namespace Encoding
variable {c : Config} {st : SendState} {ws : List UInt64} {ss : List Bytes}
  {locks : List FdLock} {exps : List Export}

theorem initial (c : Config) : Encoding c (SendState.initial c) [] [] [] [] where
  message := by simp [SendState.initial, layout, wordsBytes, Config.messageSize,
    List.replicate_append_replicate]
  words_le := Nat.zero_le _
  pool_le := Nat.zero_le _
  strit := by simp [SendState.initial]
  exports := rfl
  stored := rfl
  single := by simp
  count := Nat.zero_le _
  size := rfl

theorem descriptors_length (inv : Encoding c st ws ss locks exps) :
    st.descriptors.length = c.maxMembers := by
  rw [inv.stored, storeLocks_length, List.length_replicate]

theorem kept (inv : Encoding c st ws ss locks exps) (hfew : locks.length ≤ 255) :
    st.descriptors.take locks.length = locks := by
  rw [inv.stored, storeLocks_fresh inv.single (inv.count.trans inv.words_le) (by omega),
    List.take_left]

theorem withSize (inv : Encoding c st ws ss locks exps) (size : Option Nat) :
    Encoding c { st with messageSize := size } ws ss locks exps :=
  { inv with }

theorem writeMember (inv : Encoding c st ws ss locks exps) (w : UInt64)
    (hlt : ws.length < c.maxMembers) :
    ∃ st', Ipc.writeMember c st ws.length w = .ok st' ∧
      Encoding c st' (ws ++ [w]) ss locks exps := by
  -- the first eight unwritten bytes are those of the next member
  have hsplit : c.membersSize - 8 * ws.length = 8 + (c.membersSize - 8 * (ws ++ [w]).length) := by
    simp only [Config.membersSize, List.length_append, List.length_singleton]; omega
  have hwrite : st.message.write (8 * ws.length) (wordBytes w) =
      some (layout c (ws ++ [w]) ss) := by
    have h := Memory.write_middle ((wordsBytes ws).map some) (List.replicate 8 none)
      (List.replicate (c.membersSize - 8 * (ws ++ [w]).length) none ++
        ((frames ss).map some ++ List.replicate (c.strbufSize - (frames ss).length) none))
      (wordBytes w) (by simp)
    rw [inv.message, layout, hsplit, List.replicate_add, List.append_assoc]
    rw [List.length_map, wordsBytes_length] at h
    rw [h]
    simp [layout, wordsBytes]
  refine ⟨{ st with message := layout c (ws ++ [w]) ss }, ?_, ?_⟩
  · rw [Ipc.writeMember, if_pos hlt, hwrite]
  · exact { inv with
      message := rfl
      words_le := by simp only [List.length_append, List.length_singleton]; omega
      count := by
        have := inv.count
        simp only [List.length_append, List.length_singleton]; omega }

theorem pushString (inv : Encoding c st ws ss locks exps) (s : Bytes)
    (hfit : (frames ss).length + (s.length + 1) ≤ c.strbufSize) :
    ∃ st', Ipc.pushString st s = .ok st' ∧ Encoding c st' ws (ss ++ [s]) locks exps := by
  have hsplit : c.strbufSize - (frames ss).length =
      (s.length + 1) + (c.strbufSize - (frames (ss ++ [s])).length) := by
    simp; omega
  have hbefore : ((wordsBytes ws).map some ++
      (List.replicate (c.membersSize - 8 * ws.length) none ++ (frames ss).map some)).length =
        c.membersSize + (frames ss).length := by
    have := inv.words_le
    simp only [List.length_append, List.length_map, wordsBytes_length, List.length_replicate,
      Config.membersSize]
    omega
  have hwrite : st.message.write st.strit (frame s) = some (layout c ws (ss ++ [s])) := by
    have h := Memory.write_middle ((wordsBytes ws).map some ++
        (List.replicate (c.membersSize - 8 * ws.length) none ++ (frames ss).map some))
      (List.replicate (s.length + 1) none)
      (List.replicate (c.strbufSize - (frames (ss ++ [s])).length) none) (frame s) (by simp)
    rw [hbefore, ← inv.strit] at h
    rw [inv.message, layout, hsplit, List.replicate_add]
    simp only [List.append_assoc] at h ⊢
    rw [h]
    simp [layout]
  refine ⟨{ st with message := layout c ws (ss ++ [s]), strit := st.strit + (frame s).length },
    ?_, ?_⟩
  · rw [Ipc.pushString, hwrite]
  · exact { inv with
      message := rfl
      pool_le := by simp; omega
      strit := by rw [inv.strit]; simp; omega }

theorem exportChannel (inv : Encoding c st ws ss locks exps)
    (socketpair : Nat → Except Nat (Int × Int)) (target : ExportTarget) :
    (∃ errno, Ipc.exportChannel socketpair st target = .error (.system errno, st)) ∨
    ∃ st' e, Ipc.exportChannel socketpair st target = .ok (st', e.peer) ∧
      e.Made socketpair target ∧ Encoding c st' ws ss locks (exps ++ [e]) := by
  cases hp : socketpair st.exports.length with
  | error errno => exact .inl ⟨errno, by simp [Ipc.exportChannel, hp]⟩
  | ok pair =>
      obtain ⟨inboxfd, peer⟩ := pair
      refine .inr ⟨_, ⟨inboxfd, peer, target⟩, by simp [Ipc.exportChannel, hp]; rfl,
        ⟨rfl, _, hp⟩, ?_⟩
      exact { inv with exports := by rw [inv.exports] }

/-- The counter wraps past 255, but an index it yields is always in range. -/
theorem pushDescriptor (inv : Encoding c st ws ss locks exps) (lock : FdLock)
    (hsingle : lock.Single) (hlt : locks.length < ws.length) :
    ∃ st', Ipc.pushDescriptor st lock = .ok st' ∧ Encoding c st' ws ss (locks ++ [lock]) exps := by
  have hlen := inv.words_le
  have hindex : st.descriptorsSize.toNat = locks.length % 256 := by rw [inv.size]; simp
  have hin : st.descriptorsSize.toNat < st.descriptors.length := by
    have := Nat.mod_le locks.length 256
    rw [inv.descriptors_length]; omega
  refine ⟨_, by rw [Ipc.pushDescriptor, if_pos hin], ?_⟩
  refine { inv with
    stored := by rw [storeLocks_append, hindex, inv.stored, Nat.zero_add]; rfl
    single := ?_
    count := by simpa using hlt
    size := by simp [inv.size] }
  intro l hl
  rcases List.mem_append.mp hl with hl | hl
  · exact inv.single l hl
  · rwa [List.mem_singleton.mp hl]

theorem padMembers (inv : Encoding c st ws ss locks exps) (n : Nat)
    (hn : ws.length + n ≤ c.maxMembers) :
    ∃ st', Ipc.padMembers c n st ws.length = .ok st' ∧
      Encoding c st' (ws ++ List.replicate n Kind.nil.word) ss locks exps := by
  induction n generalizing st ws with
  | zero => exact ⟨st, rfl, by simpa using inv⟩
  | succ n ih =>
      obtain ⟨st₁, h₁, inv₁⟩ := inv.writeMember Kind.nil.word (by omega)
      obtain ⟨st₂, h₂, inv₂⟩ := ih inv₁ (by simp; omega)
      refine ⟨st₂, ?_, ?_⟩
      · rw [Ipc.padMembers, h₁]
        simpa using h₂
      · simpa [List.replicate_succ] using inv₂

/-- What the transmitted prefix holds once the member array is complete. -/
theorem contents (inv : Encoding c st ws ss locks exps) (hfull : ws.length = c.maxMembers) :
    st.message.contents (c.membersSize + (frames ss).length) = some (wordsBytes ws ++ frames ss) := by
  have hnone : c.membersSize - 8 * ws.length = 0 := by simp [Config.membersSize, hfull]
  have h := Memory.contents_stored (wordsBytes ws ++ frames ss)
    (List.replicate (c.strbufSize - (frames ss).length) none)
  rw [inv.message, layout, hnone]
  simpa [Config.membersSize, hfull, List.append_assoc] using h

theorem contents_words (inv : Encoding c st ws ss locks exps) :
    st.message.contents (8 * ws.length) = some (wordsBytes ws) := by
  have h := Memory.contents_stored (wordsBytes ws) (List.replicate (c.membersSize - 8 * ws.length) none ++
    ((frames ss).map some ++ List.replicate (c.strbufSize - (frames ss).length) none))
  rw [inv.message, layout]
  simpa using h

end Encoding

/-! The message a Lua value is encoded as, with the locks and socket pairs its
descriptors and channels turn into. -/

section Relation
variable (socketpair : Nat → Except Nat (Int × Int)) (h : Heap)

inductive Encoded : LuaVal → Member → List FdLock → List Export → Prop where
  | boolean (b : Bool) : Encoded (.boolean b) (.boolean b) [] []
  | number (bits : UInt64) : Encoded (.number bits) (.number bits) [] []
  | string (s : Bytes) (hs : s.length ≤ 255) : Encoded (.string s) (.string s) [] []
  | fileDescriptor (ref : Nat) (fd : Int) (hu : h.userdata[ref]? = some (.fileDescriptor fd))
      (hfd : fd ≠ -1) : Encoded (.userdata ref) .fileDescriptor [⟨some ref, -1⟩] []
  | address (ref : Nat) (dest : Option VmId) (hu : h.userdata[ref]? = some (.txChan dest))
      (e : Export) (he : e.Made socketpair (.address dest)) :
      Encoded (.userdata ref) .actorAddress [⟨none, e.peer⟩] [e]
  | inbox (ref : Nat) (hu : h.userdata[ref]? = some .inbox) (e : Export)
      (he : e.Made socketpair .ownInbox) :
      Encoded (.userdata ref) .actorAddress [⟨none, e.peer⟩] [e]

inductive EncodedFields : List (Σ _ : LuaVal, LuaVal) → List (Bytes × Member) →
    List FdLock → List Export → Prop where
  | nil : EncodedFields [] [] [] []
  | field {key : Bytes} {value : LuaVal} {m : Member} {rest es ls ls' xs xs'}
      (hkey : key.length ≤ 255) (hvalue : Encoded socketpair h value m ls xs)
      (hrest : EncodedFields rest es ls' xs') :
      EncodedFields (⟨.string key, value⟩ :: rest) ((key, m) :: es) (ls ++ ls') (xs ++ xs')
  | skip {key value : LuaVal} {rest es ls xs} (hkey : ∀ s, key ≠ .string s)
      (hrest : EncodedFields rest es ls xs) :
      EncodedFields (⟨key, value⟩ :: rest) es ls xs

inductive EncodedValue : LuaVal → Contents → List FdLock → List Export → Prop where
  | flat {v : LuaVal} {m ls xs} (hv : Encoded socketpair h v m ls xs) :
      EncodedValue v (.flat m) ls xs
  | table {ref : Nat} {t : LuaTable} {es ls xs} (ht : h.tables[ref]? = some t)
      (hplain : t.metatable = false) (hne : es ≠ [])
      (hfields : EncodedFields socketpair h t.fields.entries es ls xs) :
      EncodedValue (.table ref) (.table es) ls xs

variable {socketpair h} {v : LuaVal} {m : Member} {ls : List FdLock} {xs : List Export}

theorem Encoded.locks_length (e : Encoded socketpair h v m ls xs) : ls.length ≤ 1 := by
  cases e <;> simp

theorem Encoded.texts_length (e : Encoded socketpair h v m ls xs) :
    (frames m.texts).length ≤ 256 := by
  cases e with
  | string s hs => simp [Member.texts]; omega
  | boolean _ | number _ | fileDescriptor _ _ _ _ | address _ _ _ _ _ | inbox _ _ _ _ =>
      simp [Member.texts]

end Relation

/-- A call that ends without storing behind an array, and with `P` when it
does not raise. -/
def SendM.Sound {α : Type} (r : SendM α) (P : α → Prop) : Prop :=
  match r with
  | .ok a => P a
  | .error e => e.1 ≠ .overrun

namespace SendM.Sound

theorem bind {α β : Type} {r : SendM α} {f : α → SendM β} {P : α → Prop} {Q : β → Prop}
    (hr : r.Sound P) (hf : ∀ a, P a → (f a).Sound Q) : (r >>= f).Sound Q := by
  cases r with
  | ok a => exact hf a hr
  | error e => exact hr

theorem mono {α : Type} {r : SendM α} {P Q : α → Prop} (hr : r.Sound P) (h : ∀ a, P a → Q a) :
    r.Sound Q := by
  cases r with
  | ok a => exact h a hr
  | error e => exact hr

theorem of_ok {α : Type} {r : SendM α} {P : α → Prop} (h : ∃ a, r = .ok a ∧ P a) : r.Sound P := by
  obtain ⟨a, rfl, ha⟩ := h
  exact ha

theorem raise {α : Type} {e : SendError} {st : SendState} {P : α → Prop} (h : e ≠ .overrun) :
    SendM.Sound (.error (e, st)) P := h

end SendM.Sound

section Spec
variable {c : Config} {socketpair : Nat → Except Nat (Int × Int)} {h : Heap} {st : SendState}
  {ws : List UInt64} {ss : List Bytes} {locks : List FdLock} {exps : List Export}

open SendM

theorem exportChannel_sound (inv : Encoding c st ws ss locks exps) (target : ExportTarget) :
    (exportChannel socketpair st target).Sound fun r =>
      ∃ e : Export, r.2 = e.peer ∧ e.Made socketpair target ∧ Encoding c r.1 ws ss locks (exps ++ [e]) := by
  rcases inv.exportChannel socketpair target with ⟨errno, hraise⟩ | ⟨st', e, hok, htarget, inv'⟩
  · rw [hraise]
    exact Sound.raise (by simp)
  · exact Sound.of_ok ⟨_, hok, e, rfl, htarget, inv'⟩

/-- A channel among the members of a table. -/
theorem exportMember_sound (inv : Encoding c st ws ss locks exps)
    (hcount : locks.length ≤ ws.length) (hlt : ws.length < c.maxMembers) (target : ExportTarget) :
    SendM.Sound (do
      let (st, peer) ← exportChannel socketpair st target
      let st ← writeMember c st ws.length Kind.actorAddress.word
      pushDescriptor st ⟨none, peer⟩) fun st' =>
        ∃ e : Export, e.Made socketpair target ∧ Encoding c st' (ws ++ [Kind.actorAddress.word]) ss
          (locks ++ [⟨none, e.peer⟩]) (exps ++ [e]) := by
  apply (exportChannel_sound inv target).bind
  rintro ⟨st₁, peer⟩ ⟨e, hpeer, htarget, inv₁⟩
  obtain rfl : peer = e.peer := hpeer
  apply (Sound.of_ok (inv₁.writeMember Kind.actorAddress.word hlt)).bind
  intro st₂ inv₂
  apply (Sound.of_ok (inv₂.pushDescriptor ⟨none, e.peer⟩ (by simp [FdLock.Single]) (by simp; omega))).mono
  exact fun st₃ inv₃ => ⟨e, htarget, inv₃⟩

theorem encodeMember_sound (inv : Encoding c st ws ss locks exps)
    (hcount : locks.length ≤ ws.length) (hlt : ws.length < c.maxMembers)
    (hfit : (frames ss).length + 256 ≤ c.strbufSize) (v : LuaVal) :
    (encodeMember c socketpair h st ws.length v).Sound fun st' => ∃ m ls xs, Encoded socketpair h v m ls xs ∧
      Encoding c st' (ws ++ [m.word]) (ss ++ m.texts) (locks ++ ls) (exps ++ xs) := by
  cases v with
  | boolean b =>
      apply (Sound.of_ok (inv.writeMember (booleanWord b) hlt)).mono
      intro st' inv'
      refine ⟨.boolean b, [], [], .boolean b, ?_⟩
      cases b <;> simpa [Member.texts, Member.word, booleanWord] using inv'
  | number bits =>
      apply (Sound.of_ok (inv.writeMember bits hlt)).mono
      intro st' inv'
      exact ⟨.number bits, [], [], .number bits, by simpa [Member.texts, Member.word] using inv'⟩
  | string s =>
      simp only [encodeMember]
      split
      · exact Sound.raise (by simp)
      · apply (Sound.of_ok (inv.writeMember Kind.string.word hlt)).bind
        intro st₁ inv₁
        apply (Sound.of_ok (inv₁.pushString s (by omega))).mono
        intro st₂ inv₂
        exact ⟨.string s, [], [], .string s (by omega),
          by simpa [Member.texts, Member.word] using inv₂⟩
  | userdata ref =>
      simp only [encodeMember]
      split
      · rename_i dest hu
        apply (exportMember_sound inv hcount hlt (.address dest)).mono
        rintro st' ⟨e, htarget, inv'⟩
        exact ⟨.actorAddress, _, [e], .address ref dest hu e htarget,
          by simpa [Member.texts, Member.word] using inv'⟩
      · rename_i hu
        apply (exportMember_sound inv hcount hlt .ownInbox).mono
        rintro st' ⟨e, htarget, inv'⟩
        exact ⟨.actorAddress, _, [e], .inbox ref hu e htarget,
          by simpa [Member.texts, Member.word] using inv'⟩
      · rename_i fd hu
        split
        · exact Sound.raise (by simp)
        · rename_i hfd
          apply (Sound.of_ok (inv.writeMember Kind.fileDescriptor.word hlt)).bind
          intro st₁ inv₁
          apply (Sound.of_ok (inv₁.pushDescriptor ⟨some ref, -1⟩ (fun _ => rfl) (by simp; omega))).mono
          intro st₂ inv₂
          exact ⟨.fileDescriptor, _, [], .fileDescriptor ref fd hu hfd,
            by simpa [Member.texts, Member.word] using inv₂⟩
      · exact Sound.raise (by simp)
  | nil | table _ | function _ | thread _ | lightuserdata _ | cdata _ =>
      exact Sound.raise (by simp)

theorem encodeFields_sound (fields : List (Σ _ : LuaVal, LuaVal))
    (inv : Encoding c st ws ss locks exps) (hcount : locks.length ≤ ws.length)
    (hpool : (frames ss).length ≤ 512 * ws.length) :
    (encodeFields c socketpair h st ws.length fields).Sound fun r =>
      ∃ es ls xs, EncodedFields socketpair h fields es ls xs ∧ r.2 = ws.length + es.length ∧
        Encoding c r.1 (ws ++ es.map fun e => e.2.word) (ss ++ es.flatMap entryTexts)
          (locks ++ ls) (exps ++ xs) := by
  induction fields generalizing st ws ss locks exps with
  | nil => exact ⟨[], [], [], .nil, by simp, by simpa using inv⟩
  | cons field rest ih =>
      obtain ⟨key, value⟩ := field
      cases key with
      | string key =>
          simp only [encodeFields]
          split
          · exact Sound.raise (by simp)
          split
          · exact Sound.raise (by simp)
          have hlt : ws.length < c.maxMembers := lt_of_le_of_ne inv.words_le (by assumption)
          have hroom : (frames ss).length + 512 ≤ c.strbufSize := by
            simp only [Config.strbufSize]; omega
          apply (Sound.of_ok (inv.pushString key (by omega))).bind
          intro st₁ inv₁
          have hkey : (frames (ss ++ [key])).length ≤ (frames ss).length + 256 := by simp; omega
          apply (encodeMember_sound inv₁ hcount hlt (by omega) value).bind
          rintro st₂ ⟨m, ls, xs, hm, inv₂⟩
          have hls := hm.locks_length
          have htexts := hm.texts_length
          have hnext := ih inv₂ (by simp; omega) (by simp at hkey ⊢; omega)
          rw [List.length_append, List.length_singleton] at hnext
          apply hnext.mono
          rintro ⟨st₃, nf⟩ ⟨es, ls', xs', hes, hnf, inv₃⟩
          refine ⟨(key, m) :: es, ls ++ ls', xs ++ xs', .field (by omega) hm hes, ?_, ?_⟩
          · simp only at hnf ⊢
            rw [hnf, List.length_cons]; omega
          · simpa [entryTexts] using inv₃
      | nil | boolean _ | number _ | table _ | userdata _ | function _ | thread _
      | lightuserdata _ | cdata _ =>
          simp only [encodeFields]
          apply (ih inv hcount hpool).mono
          rintro r ⟨es, ls, xs, hes, hnf, inv'⟩
          exact ⟨es, ls, xs, .skip (by simp) hes, hnf, inv'⟩

/-- The encoder is done: the transmitted prefix is exactly the rendering of a
message and the locks are those of its descriptors. -/
structure Completed (c : Config) (st : SendState) (cts : Contents) (locks : List FdLock)
    (exps : List Export) : Prop where
  size : st.messageSize = some (render c cts).length
  bytes : st.message.contents (render c cts).length = some (render c cts)
  fits : (render c cts).length ≤ c.messageSize
  words_le : (cts.words c).length ≤ c.maxMembers
  exports : st.exports = exps
  count : st.descriptorsSize = UInt8.ofNat locks.length
  kept : locks.length ≤ 255 → st.descriptors.take locks.length = locks

theorem Encoding.completed {cts : Contents} (inv : Encoding c st (cts.words c) cts.texts locks exps)
    (hsize : st.messageSize = some (render c cts).length)
    (hfull : (cts.words c).length = c.maxMembers ∨ cts.texts = []) :
    Completed c st cts locks exps where
  size := hsize
  bytes := by
    rcases hfull with hfull | hnone
    · simpa [render, Config.membersSize, hfull] using inv.contents hfull
    · simpa [render, hnone] using inv.contents_words
  fits := by
    have h₁ := inv.words_le
    have h₂ := inv.pool_le
    simp only [render, List.length_append, wordsBytes_length, Config.messageSize,
      Config.membersSize]
    omega
  words_le := inv.words_le
  exports := inv.exports
  count := inv.size
  kept := inv.kept

/-- A sole value that needs no string: its two members are the whole message. -/
theorem writeFlat_sound (inv : Encoding c st [] [] locks exps) (m : Member)
    (hm : ∀ s, m ≠ .string s) :
    (writeFlat c st m.word).Sound fun st' => st'.messageSize = some (render c (.flat m)).length ∧
      Encoding c st' ((Contents.flat m).words c) (Contents.flat m).texts locks exps := by
  have htwo := c.two_lt
  have hwords : (Contents.flat m).words c = [Kind.nil.word, m.word] := by
    cases m with
    | string s => exact absurd rfl (hm s)
    | boolean _ | number _ | fileDescriptor | actorAddress => rfl
  have htexts : (Contents.flat m).texts = [] := by
    cases m with
    | string s => exact absurd rfl (hm s)
    | boolean _ | number _ | fileDescriptor | actorAddress => rfl
  apply (Sound.of_ok (inv.writeMember Kind.nil.word (by simp; omega))).bind
  intro st₁ inv₁
  apply (Sound.of_ok (inv₁.writeMember m.word (by simp; omega))).bind
  intro st₂ inv₂
  refine ⟨by simp [render, hwords, htexts], ?_⟩
  rw [hwords, htexts]
  exact inv₂.withSize _

theorem pushDescriptor_messageSize {st' : SendState} {lock : FdLock}
    (hpush : pushDescriptor st lock = .ok st') : st'.messageSize = st.messageSize := by
  simp only [pushDescriptor] at hpush
  split at hpush
  · cases hpush; rfl
  · cases hpush

theorem exportFlat_sound (inv : Encoding c st [] [] [] []) (target : ExportTarget) :
    SendM.Sound (do
      let (st, peer) ← exportChannel socketpair st target
      let st ← writeFlat c st Kind.actorAddress.word
      pushDescriptor st ⟨none, peer⟩) fun st' =>
        ∃ e : Export, e.Made socketpair target ∧
          Completed c st' (.flat .actorAddress) [⟨none, e.peer⟩] [e] := by
  apply (exportChannel_sound inv target).bind
  rintro ⟨st₁, peer⟩ ⟨e, hpeer, htarget, inv₁⟩
  obtain rfl : peer = e.peer := hpeer
  apply (writeFlat_sound inv₁ .actorAddress (by simp)).bind
  rintro st₂ ⟨hsize, inv₂⟩
  obtain ⟨st₃, hpush, inv₃⟩ := inv₂.pushDescriptor ⟨none, e.peer⟩ (by simp [FdLock.Single])
    (by simp [Contents.words])
  refine Sound.of_ok ⟨st₃, hpush, e, htarget, inv₃.completed ?_ (.inr rfl)⟩
  rw [pushDescriptor_messageSize hpush, hsize]

theorem clearMembers_sound (inv : Encoding c st [Kind.nil.word, Kind.string.word] ss locks exps) :
    (clearMembers c st).Sound fun st' => st'.strit = st.strit ∧
      Encoding c st' (Kind.nil.word :: Kind.string.word :: List.replicate (c.maxMembers - 2) 0) ss
        locks exps := by
  have htwo := c.two_lt
  have hzero : wordsBytes (List.replicate (c.maxMembers - 2) 0) =
      List.replicate (8 * (c.maxMembers - 2)) 0 := by
    generalize c.maxMembers - 2 = n
    induction n with
    | zero => rfl
    | succ n ih =>
        have hword : wordBytes 0 = List.replicate 8 0 := by decide
        rw [List.replicate_succ, wordsBytes, List.flatMap_cons, ← wordsBytes, ih, hword,
          List.replicate_append_replicate]
        congr 1; omega
  -- the cleared members are exactly the ones never written
  have hwrite : st.message.write (8 * 2) (List.replicate (8 * (c.maxMembers - 2)) 0) =
      some (layout c (Kind.nil.word :: Kind.string.word :: List.replicate (c.maxMembers - 2) 0)
        ss) := by
    have hmid := Memory.write_middle ((wordsBytes [Kind.nil.word, Kind.string.word]).map some)
      (List.replicate (c.membersSize - 8 * 2) none)
      ((frames ss).map some ++ List.replicate (c.strbufSize - (frames ss).length) none)
      (List.replicate (8 * (c.maxMembers - 2)) 0) (by simp [Config.membersSize]; omega)
    have hnone : c.membersSize - 8 * (c.maxMembers - 2 + 1 + 1) = 0 := by
      simp [Config.membersSize]; omega
    rw [inv.message, layout]
    rw [List.length_map, wordsBytes_length] at hmid
    simp only [List.length_cons, List.length_nil, Nat.zero_add, Nat.reduceAdd] at hmid ⊢
    rw [hmid, ← hzero]
    simp [layout, wordsBytes, hnone]
  rw [clearMembers, hwrite]
  exact ⟨rfl, { inv with
    message := rfl
    words_le := by simp; omega
    count := inv.count.trans (by simp) }⟩

theorem encodeFlatString_sound (inv : Encoding c st [] [] [] []) (s : Bytes) :
    (encodeFlatString c st s).Sound fun st' =>
      s.length ≤ 255 ∧ Completed c st' (.flat (.string s)) [] [] := by
  have htwo := c.two_lt
  simp only [encodeFlatString]
  split
  · exact Sound.raise (by simp)
  · apply (Sound.of_ok (inv.writeMember Kind.nil.word (by simp; omega))).bind
    intro st₁ inv₁
    apply (Sound.of_ok (inv₁.writeMember Kind.string.word (by simp; omega))).bind
    intro st₂ inv₂
    apply (Sound.of_ok (inv₂.pushString s (by simp [Config.strbufSize]; omega))).bind
    intro st₃ inv₃
    apply (clearMembers_sound inv₃).bind
    rintro st₄ ⟨hstrit, inv₄⟩
    have hlen : ((Contents.flat (.string s)).words c).length = c.maxMembers := by
      simp [Contents.words]; omega
    refine ⟨by omega, Encoding.completed (inv₄.withSize _) ?_ (.inl hlen)⟩
    rw [inv₄.strit]
    simp [render, Contents.texts, Member.texts, hlen, Config.membersSize]

theorem encodeFlatUserdata_sound (inv : Encoding c st [] [] [] []) (ref : Nat) :
    (encodeFlatUserdata c socketpair st ref h.userdata[ref]?).Sound fun st' =>
      ∃ m ls xs, Encoded socketpair h (.userdata ref) m ls xs ∧ Completed c st' (.flat m) ls xs := by
  unfold encodeFlatUserdata
  split
  · rename_i dest hu
    apply (exportFlat_sound inv (.address dest)).mono
    rintro st' ⟨e, htarget, hdone⟩
    exact ⟨_, _, _, .address ref dest hu e htarget, hdone⟩
  · rename_i hu
    apply (exportFlat_sound inv .ownInbox).mono
    rintro st' ⟨e, htarget, hdone⟩
    exact ⟨_, _, _, .inbox ref hu e htarget, hdone⟩
  · rename_i fd hu
    split
    · exact Sound.raise (by simp)
    · rename_i hfd
      apply (writeFlat_sound inv .fileDescriptor (by simp)).bind
      rintro st₁ ⟨hsize, inv₁⟩
      obtain ⟨st₂, hpush, inv₂⟩ := inv₁.pushDescriptor ⟨some ref, -1⟩ (fun _ => rfl)
        (by simp [Contents.words])
      refine Sound.of_ok ⟨st₂, hpush, _, _, _, .fileDescriptor ref fd hu hfd,
        inv₂.completed ?_ (.inr rfl)⟩
      rw [pushDescriptor_messageSize hpush, hsize]
  · exact Sound.raise (by simp)

theorem encodeTable_sound (inv : Encoding c st [] [] [] []) (ref : Nat) :
    (encodeTable c socketpair h st h.tables[ref]?).Sound fun st' =>
      ∃ cts ls xs, EncodedValue socketpair h (.table ref) cts ls xs ∧ Completed c st' cts ls xs := by
  cases ht : h.tables[ref]? with
  | none => exact Sound.raise (by simp)
  | some t =>
      simp only [encodeTable]
      split
      · exact Sound.raise (by simp)
      · rename_i hplain
        have hfields := @encodeFields_sound c socketpair h _ _ _ _ _ t.fields.entries inv
          (Nat.le_refl _) (Nat.zero_le _)
        apply SendM.Sound.bind hfields
        rintro ⟨st₁, nf⟩ ⟨es, ls, xs, hes, hnf, inv₁⟩
        simp only [List.length_nil, Nat.zero_add, List.nil_append] at hnf inv₁
        subst hnf
        split
        · exact Sound.raise (by simp)
        · rename_i hsome
          have hle : es.length ≤ c.maxMembers := by simpa using inv₁.words_le
          have hpad := inv₁.padMembers (c.maxMembers - es.length) (by simp; omega)
          rw [List.length_map] at hpad
          apply (Sound.of_ok hpad).bind
          intro st₂ inv₂
          have hlen := Contents.words_length_table c es hle
          refine ⟨.table es, ls, xs, .table ht (by simpa using hplain)
            (by intro hnil; simp [hnil] at hsome) hes,
            Encoding.completed (inv₂.withSize _) ?_ (.inl hlen)⟩
          rw [inv₂.strit]
          simp [render, Contents.texts, hlen, Config.membersSize]

/-- Every message that is not a `cdata` either raises without storing outside
an array, or is completely encoded. -/
theorem encode_sound (c : Config) (socketpair : Nat → Except Nat (Int × Int)) (h : Heap)
    (v : LuaVal) (hv : ∀ ref, v ≠ .cdata ref) :
    (encode c socketpair h (SendState.initial c) v).Sound fun st =>
      ∃ cts ls xs, EncodedValue socketpair h v cts ls xs ∧ Completed c st cts ls xs := by
  have inv := Encoding.initial c
  cases v with
  | nil | function _ | thread _ | lightuserdata _ => exact Sound.raise (by simp)
  | boolean b =>
      have hword : booleanWord b = (Member.boolean b).word := by cases b <;> rfl
      simp only [encode, hword]
      apply (writeFlat_sound inv (.boolean b) (by simp)).mono
      rintro st ⟨hsize, inv'⟩
      exact ⟨_, _, _, .flat (.boolean b), inv'.completed hsize (.inr rfl)⟩
  | number bits =>
      apply (writeFlat_sound inv (.number bits) (by simp)).mono
      rintro st ⟨hsize, inv'⟩
      exact ⟨_, _, _, .flat (.number bits), inv'.completed hsize (.inr rfl)⟩
  | string s =>
      apply (encodeFlatString_sound inv s).mono
      rintro st ⟨hs, hdone⟩
      exact ⟨_, _, _, .flat (.string s hs), hdone⟩
  | userdata ref =>
      apply (encodeFlatUserdata_sound inv ref).mono
      rintro st ⟨m, ls, xs, hm, hdone⟩
      exact ⟨_, _, _, .flat hm, hdone⟩
  | table ref => exact encodeTable_sound inv ref
  | cdata ref => exact absurd rfl (hv ref)

end Spec

end Emilua.Ipc
