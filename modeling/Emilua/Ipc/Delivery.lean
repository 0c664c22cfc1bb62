import Emilua.Ipc.Decoding

/-!
What each decoder delivers for a received packet, stated against the wire
format: a packet that spells no message is rejected with all its descriptors
closed; any other is delivered, with every descriptor owned by the message or
closed. The decoders differ in which entry of a repeated key they keep.
-/
namespace Emilua.Ipc
open Wire Loop

/-- The message a packet spells, if any. -/
def Received.read {c : Config} (r : Received c) : Option Message :=
  if r.tooShort then none else (parse c r.wire).bind (·.fill r.fds)

theorem Received.wire_ofWire (c : Config) (wire : Bytes) (h : wire.length ≤ c.messageSize)
    (stale : UInt8) (control : List ControlMessage) :
    (Received.ofWire c wire h stale control).wire = wire := by
  simp [Received.wire, Received.ofWire]

/-- The entries a `std::map` keeps of those it is given. -/
def firstEntries (es : List (Bytes × Leaf)) : List (Bytes × Leaf) :=
  es.foldl (fun m e => emplace m e.1 e.2) []

def Message.queued : Message → Value
  | .flat l => l.toValue
  | .table es => leafObject (firstEntries es)

def Message.view : Message → View
  | .flat l => .leaf (some l)
  | .table es => .table fun key => (tableOf es key).map some

theorem Received.fds_valid {c : Config} (r : Received c) : ∀ fd ∈ r.fds, fd ≠ -1 := by
  intro fd hfd
  obtain ⟨m, -, hm⟩ := List.mem_flatMap.mp hfd
  cases m with
  | rights fds => simpa using (List.mem_filter.mp hm).2
  | other => cases hm

theorem Received.descriptors_initial {c : Config} (r : Received c) :
    (Descriptors.mk r.fds 0).Holds r.fds ∧ (Descriptors.mk r.fds 0).left = r.fds := by
  refine ⟨⟨Nat.zero_le _, rfl, r.fds_valid⟩, ?_⟩
  simpa [Descriptors.left] using r.fds_valid

section Flat
variable {c : Config} (r : Received c) {β : Type} (deliver : Leaf → List Int → Outcome β)

/-- The form both decoders give to a sole value. -/
def decodeFlat : Outcome β :=
  match r.member 1 with
  | none => .outOfBounds
  | some w =>
      if isSnan w = false then deliver (.number w) r.fds
      else
        match kindOf w with
        | some .booleanTrue => deliver (.boolean true) r.fds
        | some .booleanFalse => deliver (.boolean false) r.fds
        | some .string =>
            match r.nextstr c.membersSize with
            | .value (s, _) => deliver (.string s) r.fds
            | .invalid => .rejected r.fds
            | .outOfBounds => .outOfBounds
        | some .fileDescriptor =>
            match r.fds with
            | [fd] => deliver (.fileDescriptor fd) []
            | _ => .rejected r.fds
        | some .actorAddress =>
            match r.fds with
            | [fd] => deliver (.ipcActorChan fd) []
            | _ => .rejected r.fds
        | some .nil | none => .rejected r.fds

theorem decodeFlat_spec {w : UInt64} (hw : r.member 1 = some w) :
    match ((parseMember w (r.wire.drop c.membersSize)).map fun m => Contents.flat m.1).bind
        (·.fill r.fds) with
    | none => decodeFlat r deliver = .rejected r.fds
    | some m => ∃ l left, m = .flat l ∧ decodeFlat r deliver = deliver l left ∧
        l.descriptor ++ left = r.fds := by
  have htwo := c.two_lt
  have hpool : c.membersSize < c.messageSize := by
    simp only [Config.messageSize, Config.strbufSize]; omega
  simp only [decodeFlat, hw, parseMember]
  by_cases hnan : isSnan w = false
  · simp [hnan, Contents.fill, Member.isDescriptor, Member.fill, Leaf.descriptor]
  simp only [hnan, Bool.true_eq_false, if_false]
  cases kindOf w with
  | none => rfl
  | some kind =>
      cases kind with
      | booleanTrue | booleanFalse =>
          simp [Contents.fill, Member.isDescriptor, Member.fill, Leaf.descriptor]
      | nil => rfl
      | string =>
          simp only [r.nextstr_eq hpool]
          cases takeFrame (r.wire.drop c.membersSize) <;>
            simp [Contents.fill, Member.isDescriptor, Member.fill, Leaf.descriptor]
      | fileDescriptor | actorAddress =>
          rcases hfds : r.fds with _ | ⟨fd, _ | ⟨fd', fds⟩⟩ <;>
            simp [Contents.fill, Member.isDescriptor, Member.fill, Leaf.descriptor]

end Flat

section Queued
variable {c : Config} (r : Received c)

def queuedDecoder : Decoder QueuedState Value where
  strit := QueuedState.strit
  descriptors := QueuedState.descriptors
  reject := QueuedState.reject
  put := fun s key l pos ds => { s with strit := pos, descriptors := ds }.emplace key l.toValue

theorem queuedMember_eq : queuedMember r = decodeMember r queuedDecoder := rfl

theorem queuedFlat_eq :
    queuedFlat r = decodeFlat r fun l closed => .delivered l.toValue closed := rfl

def QueuedHolds (s : QueuedState) (es : List (Bytes × Leaf)) : Prop :=
  s.dict = (firstEntries es).map (fun e => (e.1, e.2.toValue)) ∧
    (s.closed ++ (boxesObject s.dict ++ s.descriptors.left)).Perm r.fds

theorem queuedDecoder_accounts : queuedDecoder.Accounts r (QueuedHolds r) where
  strit_put := fun _ _ _ _ _ => rfl
  descriptors_put := fun _ _ _ _ _ => rfl
  reject := fun hs => ⟨_, rfl, hs.2⟩
  put := by
    intro s es key l pos ds hs hleft
    rw [← l.boxes_toValue] at hleft
    refine ⟨?_, List.Perm.trans ?_ hs.2⟩
    · simp only [queuedDecoder, QueuedState.emplace, hs.1, emplace_map, firstEntries,
        List.foldl_append, List.foldl_cons, List.foldl_nil]
    · simp only [queuedDecoder, QueuedState.emplace, Emilua.emplace, List.append_assoc]
      apply List.Perm.append_left
      split
      · exact (List.perm_append_comm_assoc _ _ _).trans (hleft.append_left _)
      · refine ((boxesObject_insertKey s.dict key l.toValue).append_right _).trans ?_
        rw [List.append_assoc]
        exact (List.perm_append_comm_assoc _ _ _).trans (hleft.append_left _)

theorem queuedDecoder_initial :
    queuedDecoder.Reads r (QueuedHolds r) 0 ⟨[], c.membersSize, ⟨r.fds, 0⟩, []⟩
      ⟨r.wire.drop c.membersSize, r.fds, []⟩ := by
  obtain ⟨hds, hleft⟩ := r.descriptors_initial
  exact ⟨rfl, Nat.le_refl _, hds, rfl, by simp [boxesObject, hleft]⟩

end Queued

section Direct
variable {c : Config} (r : Received c) (base t : Nat)

def directDecoder : Decoder DirectState (LuaVal × Heap) where
  strit := DirectState.strit
  descriptors := DirectState.descriptors
  reject := DirectState.badMessage base
  put := fun s key l pos ds =>
    { s with strit := pos, descriptors := ds }.rawset t key (s.heap.pushLeaf l)

theorem directMember_eq : directMember r base t = decodeMember r (directDecoder base t) := rfl

theorem directFlat_eq (h : Heap) :
    directFlat r base h =
      decodeFlat r fun l left => directDone base (h.pushLeaf l).1 (h.pushLeaf l).2 left := rfl

theorem descriptorsFrom_all (h : Heap) :
    descriptorsFrom h base (fun _ => true) =
      (h.userdata.drop base).flatMap Userdata.descriptor := by
  simp only [descriptorsFrom, List.filter_true]
  generalize hn : h.userdata.length - base = n
  induction n generalizing base with
  | zero =>
      rw [List.drop_eq_nil_of_le (by omega)]
      rfl
  | succ n ih =>
      have hlt : base < h.userdata.length := by omega
      rw [List.range'_succ, List.flatMap_cons, ih (base + 1) (by omega),
        List.drop_eq_getElem_cons hlt, List.flatMap_cons, List.getElem?_eq_getElem hlt]
      rfl

theorem descriptorsFrom_end (h : Heap) :
    descriptorsFrom h h.userdata.length (fun _ => true) = [] := by
  simp [descriptorsFrom_all]

theorem descriptorsFrom_partition (h : Heap) (p : Nat → Bool) :
    (descriptorsFrom h base p ++ descriptorsFrom h base fun ref => !p ref).Perm
      (descriptorsFrom h base fun _ => true) := by
  simp only [descriptorsFrom, ← List.flatMap_append, List.filter_true]
  exact (List.filter_append_perm p _).flatMap_right _

theorem descriptorsFrom_pushLeaf (h : Heap) (l : Leaf) (hbase : base ≤ h.userdata.length) :
    descriptorsFrom (h.pushLeaf l).2 base (fun _ => true) =
      descriptorsFrom h base (fun _ => true) ++ l.descriptor := by
  simp only [descriptorsFrom_all]
  cases l <;>
    simp [Heap.pushLeaf, Heap.newuserdata, List.drop_append_of_le_length hbase, Leaf.descriptor,
      Userdata.descriptor]

/-- Everything in the heap from `base` on is reached from the delivered value
or garbage. -/
theorem directDone_spec {v : LuaVal} {h : Heap} {left : List Int}
    (howned : (descriptorsFrom h base (fun _ => true) ++ left).Perm r.fds) :
    ∃ closed, directDone base v h left = .delivered (v, h) closed ∧
      (descriptorsFrom h base (leadsTo h v) ++ closed).Perm r.fds := by
  refine ⟨_, rfl, ?_⟩
  rw [← List.append_assoc]
  exact ((descriptorsFrom_partition base h _).append_right _).trans howned

def DirectHolds (s : DirectState) (es : List (Bytes × Leaf)) : Prop :=
  s.heap.Shows t (tableOf es) ∧ base ≤ s.heap.userdata.length ∧
    (descriptorsFrom s.heap base (fun _ => true) ++ s.descriptors.left).Perm r.fds

theorem directDecoder_accounts : (directDecoder base t).Accounts r (DirectHolds r base t) where
  strit_put := fun _ _ _ _ _ => rfl
  descriptors_put := fun _ _ _ _ _ => rfl
  reject := fun hs => ⟨_, rfl, hs.2.2⟩
  put := by
    intro s es key l pos ds ⟨hshows, hbase, howned⟩ hleft
    refine ⟨?_, ?_, List.Perm.trans ?_ howned⟩
    · rw [tableOf_append]
      exact hshows.rawset (.string key) l
    · exact hbase.trans (s.heap.pushLeaf_userdata_kept l).length_le
    · have hall : descriptorsFrom ((directDecoder base t).put s key l pos ds).heap base
          (fun _ => true) = descriptorsFrom s.heap base (fun _ => true) ++ l.descriptor :=
        descriptorsFrom_pushLeaf base s.heap l hbase
      rw [hall, List.append_assoc]
      exact hleft.append_left _

theorem directDecoder_initial (h : Heap) :
    (directDecoder h.userdata.length h.tables.length).Reads r
      (DirectHolds r h.userdata.length h.tables.length) 0
      ⟨h.newtable.2, c.membersSize, ⟨r.fds, 0⟩⟩ ⟨r.wire.drop c.membersSize, r.fds, []⟩ := by
  obtain ⟨hds, hleft⟩ := r.descriptors_initial
  have hnone : descriptorsFrom h.newtable.2 h.userdata.length (fun _ => true) = [] :=
    descriptorsFrom_end h
  exact ⟨rfl, Nat.le_refl _, hds, h.shows_newtable_tableOf, Nat.le_refl _, by simp [hnone, hleft]⟩

end Direct

section Receive
variable {c : Config} (r : Received c)

theorem Received.sixteen_le (hshort : r.tooShort = false) : 16 ≤ r.nread := by
  simp only [Received.tooShort, Bool.or_eq_false_iff, decide_eq_false_iff_not] at hshort
  omega

theorem Received.members_read (hshort : r.tooShort = false) :
    ∃ w₀ w₁, r.member 0 = some w₀ ∧ r.member 1 = some w₁ ∧ wordAt r.wire 0 = some w₀ ∧
      wordAt r.wire 1 = some w₁ := by
  have htwo := c.two_lt
  have hread := r.sixteen_le hshort
  have hword (i : Nat) (hi : i < 2) :
      ∃ w, r.member i = some w ∧ wordAt r.wire i = some w := by
    have hw := wordAt_isSome (show 8 * i + 8 ≤ r.wire.length by rw [r.wire_length]; omega)
    exact ⟨_, (r.member_eq (by omega) (by omega)).trans hw, hw⟩
  obtain ⟨w₀, h₀, h₀'⟩ := hword 0 (by omega)
  obtain ⟨w₁, h₁, h₁'⟩ := hword 1 (by omega)
  exact ⟨w₀, w₁, h₀, h₁, h₀', h₁'⟩

/-- The three shapes of a packet that is not dropped at once. -/
theorem Received.read_cases (hshort : r.tooShort = false) :
    (∃ w, r.member 0 = some Kind.nil.word ∧ r.member 1 = some w ∧
      r.read = ((parseMember w (r.wire.drop c.membersSize)).map fun m => Contents.flat m.1).bind
        (·.fill r.fds)) ∨
    (∃ w, r.member 0 = some w ∧ w ≠ Kind.nil.word ∧ r.nread < c.membersSize ∧ r.read = none) ∨
    (∃ w, r.member 0 = some w ∧ w ≠ Kind.nil.word ∧ c.membersSize ≤ r.nread ∧
      r.read = ((parseEntries r.wire c.maxMembers 0 (r.wire.drop c.membersSize)).bind
        (fillEntries · r.fds)).map .table) := by
  obtain ⟨w₀, w₁, h₀, h₁, h₀', h₁'⟩ := r.members_read hshort
  have hread : r.read = (parse c r.wire).bind (·.fill r.fds) := by
    rw [Received.read, hshort]; rfl
  simp only [parse, h₀', h₁', r.wire_length] at hread
  by_cases hnil : w₀ = Kind.nil.word
  · simp only [hnil, if_true] at hread
    exact .inl ⟨w₁, hnil ▸ h₀, h₁, hread⟩
  · simp only [hnil, if_false] at hread
    by_cases hlen : r.nread < c.membersSize
    · simp only [hlen, if_true] at hread
      exact .inr (.inl ⟨w₀, h₀, hnil, hlen, hread⟩)
    · simp only [hlen, if_false] at hread
      refine .inr (.inr ⟨w₀, h₀, hnil, by omega, ?_⟩)
      rw [hread]
      cases parseEntries r.wire c.maxMembers 0 (r.wire.drop c.membersSize) <;> rfl

theorem receiveQueued_spec :
    match r.read with
    | none => RejectedAll r (receiveQueued r)
    | some m => ∃ closed, receiveQueued r = .delivered m.queued closed ∧
        (m.queued.boxes ++ closed).Perm r.fds := by
  cases hshort : r.tooShort with
  | true =>
      simp only [Received.read, receiveQueued, hshort, if_true]
      exact ⟨_, rfl, .refl _⟩
  | false =>
      simp only [receiveQueued, hshort, Bool.false_eq_true, if_false, queuedDelivery]
      rcases r.read_cases hshort with ⟨w, h₀, h₁, hread⟩ | ⟨w, h₀, hnil, hlen, hread⟩ |
        ⟨w, h₀, hnil, hlen, hread⟩
      · have hflat := decodeFlat_spec r (fun l closed => Outcome.delivered l.toValue closed) h₁
        rw [← hread] at hflat
        simp only [h₀, if_true, queuedFlat_eq]
        cases hm : r.read with
        | none => rw [hm] at hflat; exact ⟨_, hflat, .refl _⟩
        | some m =>
            rw [hm] at hflat
            obtain ⟨l, left, rfl, hd, hfds⟩ := hflat
            refine ⟨left, hd, ?_⟩
            rw [Message.queued, l.boxes_toValue, hfds]
      · simp only [h₀, hnil, if_false, hlen, if_true, hread]
        exact ⟨_, rfl, .refl _⟩
      · simp only [h₀, hnil, if_false, Nat.not_lt.mpr hlen, hread]
        have hrun := decode_run (queuedDecoder_accounts r) hlen (queuedDecoder_initial r)
        rw [queuedMember_eq]
        cases hes : (parseEntries r.wire c.maxMembers 0 (r.wire.drop c.membersSize)).bind
            (fillEntries · r.fds) with
        | none =>
            rw [hes] at hrun
            obtain ⟨o, ho, hrej⟩ := hrun
            rw [ho]
            exact hrej
        | some es =>
            rw [hes] at hrun
            obtain ⟨s, hs, hdict, howned⟩ := hrun
            rw [hs]
            refine ⟨_, by rw [Message.queued, leafObject, ← hdict], ?_⟩
            rw [Message.queued, leafObject, Value.boxes, ← hdict]
            exact (List.perm_append_comm_assoc _ _ _).trans howned

theorem receiveDirect_spec (h : Heap) :
    match r.read with
    | none => RejectedAll r (receiveDirect r h)
    | some m => ∃ v h' closed, receiveDirect r h = .delivered (v, h') closed ∧
        h'.view v = m.view ∧
        (descriptorsFrom h' h.userdata.length (leadsTo h' v) ++ closed).Perm r.fds := by
  cases hshort : r.tooShort with
  | true =>
      simp only [Received.read, receiveDirect, hshort, if_true]
      exact ⟨_, rfl, .refl _⟩
  | false =>
      have hnone := descriptorsFrom_end h
      simp only [receiveDirect, hshort, Bool.false_eq_true, if_false, directDelivery]
      rcases r.read_cases hshort with ⟨w, h₀, h₁, hread⟩ | ⟨w, h₀, hnil, hlen, hread⟩ |
        ⟨w, h₀, hnil, hlen, hread⟩
      · have hflat := decodeFlat_spec r (fun l left =>
          directDone h.userdata.length (h.pushLeaf l).1 (h.pushLeaf l).2 left) h₁
        rw [← hread] at hflat
        simp only [h₀, if_true, directFlat_eq]
        cases hm : r.read with
        | none => rw [hm] at hflat; exact ⟨_, hflat, .refl _⟩
        | some m =>
            rw [hm] at hflat
            obtain ⟨l, left, rfl, hd, hfds⟩ := hflat
            obtain ⟨closed, hdone, howned⟩ := directDone_spec r h.userdata.length
              (v := (h.pushLeaf l).1) (show (descriptorsFrom (h.pushLeaf l).2 h.userdata.length (fun _ => true) ++ left).Perm r.fds by
                rw [descriptorsFrom_pushLeaf _ _ _ (Nat.le_refl _), hnone, List.nil_append, hfds])
            exact ⟨_, _, closed, hd.trans hdone, h.view_pushLeaf l, howned⟩
      · simp only [h₀, hnil, if_false, hlen, if_true, hread]
        exact ⟨_, rfl, .refl _⟩
      · simp only [h₀, hnil, if_false, Nat.not_lt.mpr hlen, hread]
        have hrun := decode_run (directDecoder_accounts r _ _) hlen (directDecoder_initial r h)
        rw [directMember_eq]
        cases hes : (parseEntries r.wire c.maxMembers 0 (r.wire.drop c.membersSize)).bind
            (fillEntries · r.fds) with
        | none =>
            rw [hes] at hrun
            obtain ⟨o, ho, hrej⟩ := hrun
            rw [ho]
            exact hrej
        | some es =>
            rw [hes] at hrun
            obtain ⟨s, hs, hshown, -, howned⟩ := hrun
            rw [hs]
            obtain ⟨closed, hdone, hperm⟩ := directDone_spec r h.userdata.length
              (v := h.newtable.1) howned
            exact ⟨_, _, closed, hdone, hshown.view, hperm⟩

end Receive

end Emilua.Ipc
