import Emilua.Ipc.Delivery

/-!
What lies behind the received bytes cannot influence a delivery: two buffers
with the same first `nread` bytes lead to the same outcome, down to the
descriptors that are closed, and no access leaves the message object. The
length byte of a string is fetched before it is checked, so the argument needs
the bound on the position in the pool that the decoders keep.
-/
namespace Emilua.Ipc
open Wire Loop

/-- The same bytes and the same descriptors were received. -/
structure SamePacket {c : Config} (r₁ r₂ : Received c) : Prop where
  nread : r₁.nread = r₂.nread
  bytes : r₁.message.take r₁.nread = r₂.message.take r₁.nread
  control : r₁.control = r₂.control
  truncated : r₁.truncated = r₂.truncated

namespace SamePacket
variable {c : Config} {r₁ r₂ : Received c} (h : SamePacket r₁ r₂)
include h

theorem wire : r₁.wire = r₂.wire := by
  rw [Received.wire, Received.wire, h.bytes, h.nread]

theorem fds : r₁.fds = r₂.fds := by
  rw [Received.fds, Received.fds, h.control]

theorem tooShort : r₁.tooShort = r₂.tooShort := by
  rw [Received.tooShort, Received.tooShort, h.nread, h.truncated]

theorem member {i : Nat} (hi : i < c.maxMembers) (hread : 8 * i + 8 ≤ r₁.nread) :
    r₁.member i = r₂.member i := by
  rw [r₁.member_eq hi hread, r₂.member_eq hi (h.nread ▸ hread), h.wire]

theorem nextstr {strit : Nat} (hlt : strit < c.messageSize) :
    r₁.nextstr strit = r₂.nextstr strit := by
  rw [r₁.nextstr_eq hlt, r₂.nextstr_eq hlt, h.wire]

theorem decodeMember {σ β : Type} (d : Decoder σ β) {nf : Nat} {s : σ} (hnf : nf < c.maxMembers)
    (hfull : c.membersSize ≤ r₁.nread) (hstrit : d.strit s ≤ c.membersSize + 512 * nf) :
    decodeMember r₁ d nf s = decodeMember r₂ d nf s := by
  have hsize : c.messageSize = c.membersSize + 512 * c.maxMembers := by
    simp only [Config.messageSize, Config.strbufSize]; omega
  have hread : 8 * nf + 8 ≤ r₁.nread := by simp only [Config.membersSize] at hfull; omega
  have hlt : d.strit s < c.messageSize := by omega
  simp only [Ipc.decodeMember, h.member hnf hread, ← h.nextstr hlt]
  cases hkey : r₁.nextstr (d.strit s) with
  | invalid | outOfBounds => rfl
  | value frame =>
      obtain ⟨key, pos⟩ := frame
      -- the string value, if any, starts behind a key of at most 255 bytes
      have hpos : pos < c.messageSize := by
        rw [r₁.nextstr_eq hlt] at hkey
        cases hframe : takeFrame (r₁.wire.drop (d.strit s)) with
        | none => rw [hframe] at hkey; cases hkey
        | some frame =>
            obtain ⟨key', rest⟩ := frame
            have hlen := takeFrame_length_le hframe
            rw [hframe] at hkey
            cases hkey
            omega
      simp only [Fetch.flow, h.nextstr hpos]

theorem run {σ β : Type} {d : Decoder σ β} {holds : σ → List (Bytes × Leaf) → Prop} {s : σ}
    {t : Reader} (hacc : d.Accounts r₁ holds) (hfull : c.membersSize ≤ r₁.nread)
    (hs : d.Reads r₁ holds 0 s t) :
    Loop.run (Ipc.decodeMember r₁ d) c.maxMembers 0 s =
      Loop.run (Ipc.decodeMember r₂ d) c.maxMembers 0 s := by
  apply run_congr (I := fun nf s => ∃ t, d.Reads r₁ holds nf s t) _ _ _ ?_ ?_ ⟨t, hs⟩
  · rintro nf s hnf ⟨t, hs⟩
    exact h.decodeMember d (by omega) hfull hs.strit_le
  · rintro nf s s' hnf ⟨t, hs⟩ hnext
    have hstep := decodeMember_reads hacc hfull (by omega) hs
    rw [hnext] at hstep
    generalize readMember r₁.wire nf t = turn at hstep
    cases hstep with
    | next hs' => exact ⟨_, hs'⟩

theorem decodeFlat {β : Type} (deliver : Leaf → List Int → Outcome β) (hread : 16 ≤ r₁.nread) :
    decodeFlat r₁ deliver = decodeFlat r₂ deliver := by
  have htwo := c.two_lt
  have hpool : c.membersSize < c.messageSize := by
    simp only [Config.messageSize, Config.strbufSize]; omega
  simp only [Ipc.decodeFlat, h.member (show 1 < c.maxMembers by omega) hread, h.nextstr hpool, h.fds]

theorem receiveQueued : receiveQueued r₁ = receiveQueued r₂ := by
  cases hshort : r₁.tooShort with
  | true => simp only [Ipc.receiveQueued, ← h.tooShort, hshort, if_true, h.fds]
  | false =>
      have hread := r₁.sixteen_le hshort
      simp only [Ipc.receiveQueued, ← h.tooShort, hshort, Bool.false_eq_true, if_false,
        queuedDelivery, ← h.member (show 0 < c.maxMembers by have := c.two_lt; omega) (by omega),
        queuedFlat_eq, h.decodeFlat _ hread, ← h.nread]
      by_cases hlen : r₁.nread < c.membersSize
      · simp only [hlen, if_true, h.fds]
      · have hrun := h.run (queuedDecoder_accounts r₁) (by omega) (queuedDecoder_initial r₁)
        rw [queuedMember_eq, queuedMember_eq, hrun, h.fds]

theorem receiveDirect (hp : Heap) : receiveDirect r₁ hp = receiveDirect r₂ hp := by
  cases hshort : r₁.tooShort with
  | true => simp only [Ipc.receiveDirect, ← h.tooShort, hshort, if_true, h.fds]
  | false =>
      have hread := r₁.sixteen_le hshort
      simp only [Ipc.receiveDirect, ← h.tooShort, hshort, Bool.false_eq_true, if_false,
        directDelivery, ← h.member (show 0 < c.maxMembers by have := c.two_lt; omega) (by omega),
        directFlat_eq, h.decodeFlat _ hread, ← h.nread]
      by_cases hlen : r₁.nread < c.membersSize
      · simp only [hlen, if_true, h.fds]
      · have hrun := h.run (directDecoder_accounts r₁ _ _) (by omega) (directDecoder_initial r₁ hp)
        rw [directMember_eq, directMember_eq, hrun, h.fds]

end SamePacket

theorem receiveQueued_inBounds {c : Config} (r : Received c) :
    receiveQueued r ≠ .outOfBounds := by
  have hspec := receiveQueued_spec r
  split at hspec
  · obtain ⟨_, ho, -⟩ := hspec
    simp [ho]
  · obtain ⟨_, ho, -⟩ := hspec
    simp [ho]

theorem receiveDirect_inBounds {c : Config} (r : Received c) (h : Heap) :
    receiveDirect r h ≠ .outOfBounds := by
  have hspec := receiveDirect_spec r h
  split at hspec
  · obtain ⟨_, ho, -⟩ := hspec
    simp [ho]
  · obtain ⟨_, _, _, ho, -⟩ := hspec
    simp [ho]

theorem receive_confined {c : Config} (r₁ r₂ : Received c) (h : Heap) (hsame : SamePacket r₁ r₂) :
    receiveQueued r₁ = receiveQueued r₂ ∧ receiveDirect r₁ h = receiveDirect r₂ h ∧
      receiveQueued r₁ ≠ .outOfBounds ∧ receiveDirect r₁ h ≠ .outOfBounds :=
  ⟨hsame.receiveQueued, hsame.receiveDirect h, receiveQueued_inBounds r₁, receiveDirect_inBounds r₁ h⟩

/-- The tag of a string without the string, in the smallest build. -/
def stringTagOnly (stale : UInt8) : Received ⟨3, by decide⟩ :=
  Received.ofWire _ (wordsBytes [Kind.nil.word, Kind.string.word])
    (by simp [Config.messageSize, Config.membersSize, Config.strbufSize]) stale []

theorem receive_confined_stringTagOnly :
    SamePacket (stringTagOnly 0) (stringTagOnly 1) ∧
      receiveQueued (stringTagOnly 0) = receiveQueued (stringTagOnly 1) ∧
      receiveDirect (stringTagOnly 0) Heap.empty = receiveDirect (stringTagOnly 1) Heap.empty := by
  have hwire (stale : UInt8) : (stringTagOnly stale).message.take (stringTagOnly stale).nread =
      wordsBytes [Kind.nil.word, Kind.string.word] := Received.wire_ofWire _ _ _ _ _
  have hsame : SamePacket (stringTagOnly 0) (stringTagOnly 1) :=
    ⟨rfl, (hwire 0).trans (hwire 1).symm, rfl, rfl⟩
  obtain ⟨hq, hd, -⟩ := receive_confined _ _ Heap.empty hsame
  exact ⟨hsame, hq, hd⟩

end Emilua.Ipc
