import Emilua.Ipc.Receive

/-!
Both decoders read what the wire format says, and account for the descriptors.

`readMember` is one turn of a reader that looks at the received bytes only and
collects the entries of a table. Either decoder simulates it turn by turn: the
position in the string pool stays inside the buffer, the vector's unused slots
are the reader's remaining descriptors, and what has left the vector is owned
by exactly one box or userdata or has been closed.
-/
namespace Emilua.Ipc
open Wire Loop

structure Reader where
  pool : Bytes
  fds : List Int
  entries : List (Bytes × Leaf)

def readMember (wire : Bytes) (nf : Nat) (t : Reader) : Flow Reader Unit :=
  match wordAt wire nf with
  | none => .exit ()
  | some w =>
      if w = Kind.nil.word then .stop t
      else
        match takeFrame t.pool with
        | none => .exit ()
        | some (key, pool) =>
            match parseMember w pool with
            | none => .exit ()
            | some (m, pool) =>
                match m.fill t.fds with
                | none => .exit ()
                | some (l, fds) => .next ⟨pool, fds, t.entries ++ [(key, l)]⟩

theorem run_readMember (wire : Bytes) (n nf : Nat) (t : Reader) :
    match (parseEntries wire n nf t.pool).bind (fillEntries · t.fds) with
    | none => run (readMember wire) n nf t = .error ()
    | some es => ∃ t', run (readMember wire) n nf t = .ok t' ∧ t'.entries = t.entries ++ es := by
  induction n generalizing nf t with
  | zero => exact ⟨t, rfl, by simp⟩
  | succ n ih =>
      simp only [parseEntries, run, readMember]
      cases wordAt wire nf with
      | none => rfl
      | some w =>
          by_cases hw : w = Kind.nil.word
          · simp [hw, fillEntries]
          · simp only [hw, if_false]
            cases takeFrame t.pool with
            | none => rfl
            | some frame =>
                obtain ⟨key, pool⟩ := frame
                simp only
                cases parseMember w pool with
                | none => rfl
                | some read =>
                    obtain ⟨m, pool⟩ := read
                    simp only
                    cases hfill : m.fill t.fds with
                    | none =>
                        cases parseEntries wire n (nf + 1) pool <;> simp [fillEntries, hfill]
                    | some filled =>
                        obtain ⟨l, fds⟩ := filled
                        have hrest := ih (nf + 1) ⟨pool, fds, t.entries ++ [(key, l)]⟩
                        cases hes : parseEntries wire n (nf + 1) pool with
                        | none => simpa [hes] using hrest
                        | some es =>
                            cases hls : fillEntries es fds with
                            | none => simpa [hes, fillEntries, hfill, hls] using hrest
                            | some ls =>
                                simpa [hes, fillEntries, hfill, hls] using hrest

/-! Reading the buffer. -/

namespace Received
variable {c : Config} (r : Received c)

theorem wire_length : r.wire.length = r.nread := by
  have h₁ := r.nread_le
  have h₂ := r.length_eq
  simp only [wire, List.length_take]
  omega

theorem member_eq {i : Nat} (hi : i < c.maxMembers) (hread : 8 * i + 8 ≤ r.nread) :
    r.member i = wordAt r.wire i := by
  rw [member, if_pos hi, wire, wordAt_take hread (by rw [r.length_eq]; exact r.nread_le)]

/-- The length byte may lie behind the received bytes, but then no string does. -/
theorem nextstr_eq {strit : Nat} (h : strit < c.messageSize) :
    r.nextstr strit =
      match takeFrame (r.wire.drop strit) with
      | none => .invalid
      | some (s, _) => .value (s, strit + 1 + s.length) := by
  have hlen := r.length_eq
  have hnread := r.nread_le
  have hbyte : r.message[strit]? = some (r.message.get ⟨strit, by omega⟩) := by simp
  rw [nextstr, hbyte, takeFrame_drop, wire_length]
  generalize r.message.get ⟨strit, _⟩ = size at hbyte ⊢
  by_cases hin : strit < r.nread
  · have hwire : r.wire[strit]? = some size := by
      rw [wire, List.getElem?_take_of_lt hin, hbyte]
    rw [hwire]
    by_cases hfit : strit + 1 + size.toNat ≤ r.nread
    · have htext : (r.wire.drop (strit + 1)).take size.toNat =
          (r.message.drop (strit + 1)).take size.toNat := by
        rw [wire, List.drop_take, List.take_take, min_eq_left (by omega)]
      have hsize : ((r.message.drop (strit + 1)).take size.toNat).length = size.toNat := by
        simp only [List.length_take, List.length_drop]; omega
      simp [hfit, htext, hlen, show strit + 1 + size.toNat ≤ c.messageSize by omega]
      omega
    · simp [hfit]
  · have hwire : r.wire[strit]? = none :=
      List.getElem?_eq_none (by rw [wire_length]; omega)
    simp [hwire, show ¬ strit + 1 + size.toNat ≤ r.nread by omega]

end Received

/-! Handing out descriptors. -/

/-- The slots from the index on hold `rest`, all of them still open. -/
structure Descriptors.Holds (d : Descriptors) (rest : List Int) : Prop where
  idx_le : d.fdsidx ≤ d.fds.length
  rest_eq : d.fds.drop d.fdsidx = rest
  valid : ∀ fd ∈ rest, fd ≠ -1

theorem Descriptors.Holds.next_nil {d : Descriptors} (h : d.Holds []) : d.next = .invalid := by
  have hlen := congrArg List.length h.rest_eq
  have hle := h.idx_le
  simp only [List.length_drop, List.length_nil] at hlen
  rw [Descriptors.next, if_pos (by omega)]

theorem Descriptors.Holds.next_cons {d : Descriptors} {fd : Int} {rest : List Int}
    (h : d.Holds (fd :: rest)) :
    ∃ d', d.next = .value (fd, d') ∧ d'.Holds rest ∧ (fd :: d'.left).Perm d.left := by
  have hlt : d.fdsidx < d.fds.length := by
    have hlen := congrArg List.length h.rest_eq
    simp only [List.length_drop, List.length_cons] at hlen
    omega
  have hcons := h.rest_eq
  rw [List.drop_eq_getElem_cons hlt, List.cons.injEq] at hcons
  obtain ⟨hfd, hrest⟩ := hcons
  have hne : fd ≠ -1 := h.valid fd (by simp)
  refine ⟨⟨d.fds.set d.fdsidx (-1), d.fdsidx + 1⟩, ?_, ?_, ?_⟩
  · rw [Descriptors.next, if_neg (by omega), List.getElem?_eq_getElem hlt, hfd]
  · refine ⟨by simp; omega, ?_, fun fd hfd => h.valid fd (List.mem_cons_of_mem _ hfd)⟩
    show (d.fds.set d.fdsidx (-1)).drop (d.fdsidx + 1) = rest
    rw [List.drop_set_of_lt (by omega)]
    exact hrest
  · -- the slot is split out of the vector on both sides
    have hsplit : d.fds = d.fds.take d.fdsidx ++ fd :: d.fds.drop (d.fdsidx + 1) := by
      rw [← hfd, ← List.drop_eq_getElem_cons hlt, List.take_append_drop]
    have hset : d.fds.set d.fdsidx (-1) =
        d.fds.take d.fdsidx ++ (-1) :: d.fds.drop (d.fdsidx + 1) := by
      rw [List.set_eq_take_append_cons_drop, if_pos hlt]
    simp only [Descriptors.left, hset]
    conv_rhs => rw [hsplit]
    simp [List.filter_append, hne]
    exact List.perm_middle.symm

/-! One turn of either decoder, over its own notion of state: how it sets an
entry, and what becomes of the message when it gives up. -/

def RejectedAll {c : Config} {β : Type} (r : Received c) (o : Outcome β) : Prop :=
  ∃ closed, o = .rejected closed ∧ closed.Perm r.fds

structure Decoder (σ β : Type) where
  strit : σ → Nat
  descriptors : σ → Descriptors
  reject : σ → Outcome β
  put : σ → Bytes → Leaf → Nat → Descriptors → σ

section Decoder
variable {c : Config} (r : Received c) {σ β : Type} (d : Decoder σ β)

def decodeMember (nf : Nat) (s : σ) : Flow σ (Outcome β) :=
  match r.member nf with
  | none => .exit .outOfBounds
  | some w =>
      if w = Kind.nil.word then .stop s
      else
        (r.nextstr (d.strit s)).flow (d.reject s) fun (key, strit) =>
          if isSnan w = false then .next (d.put s key (.number w) strit (d.descriptors s))
          else
            match kindOf w with
            | some .booleanTrue => .next (d.put s key (.boolean true) strit (d.descriptors s))
            | some .booleanFalse => .next (d.put s key (.boolean false) strit (d.descriptors s))
            | some .string =>
                (r.nextstr strit).flow (d.reject s) fun (value, strit) =>
                  .next (d.put s key (.string value) strit (d.descriptors s))
            | some .fileDescriptor =>
                (d.descriptors s).next.flow (d.reject s) fun (fd, ds) =>
                  .next (d.put s key (.fileDescriptor fd) strit ds)
            | some .actorAddress =>
                (d.descriptors s).next.flow (d.reject s) fun (fd, ds) =>
                  .next (d.put s key (.ipcActorChan fd) strit ds)
            | some .nil | none => .exit (d.reject s)

/-- `holds s es` says that the state has taken in the entries `es` and that no
descriptor is lost; giving up at any such state closes all of them. -/
structure Decoder.Accounts (holds : σ → List (Bytes × Leaf) → Prop) : Prop where
  strit_put : ∀ s key l pos ds, d.strit (d.put s key l pos ds) = pos
  descriptors_put : ∀ s key l pos ds, d.descriptors (d.put s key l pos ds) = ds
  put : ∀ {s es} key l pos {ds : Descriptors}, holds s es →
    (l.descriptor ++ ds.left).Perm (d.descriptors s).left →
      holds (d.put s key l pos ds) (es ++ [(key, l)])
  reject : ∀ {s es}, holds s es → RejectedAll r (d.reject s)

structure Decoder.Reads (holds : σ → List (Bytes × Leaf) → Prop) (nf : Nat) (s : σ)
    (t : Reader) : Prop where
  pool : t.pool = r.wire.drop (d.strit s)
  strit_le : d.strit s ≤ c.membersSize + 512 * nf
  descriptors : (d.descriptors s).Holds t.fds
  holds : holds s t.entries

variable {r d} {holds : σ → List (Bytes × Leaf) → Prop} {nf : Nat} {s : σ} {t : Reader}

theorem Decoder.Reads.put (hacc : d.Accounts r holds) (hs : d.Reads r holds nf s t) (key : Bytes)
    (l : Leaf) {pos : Nat} {ds : Descriptors} {rest : List Int}
    (hpos : pos ≤ c.membersSize + 512 * (nf + 1)) (hds : ds.Holds rest)
    (hleft : (l.descriptor ++ ds.left).Perm (d.descriptors s).left) :
    d.Reads r holds (nf + 1) (d.put s key l pos ds)
      ⟨r.wire.drop pos, rest, t.entries ++ [(key, l)]⟩ where
  pool := by rw [hacc.strit_put]
  strit_le := by rw [hacc.strit_put]; exact hpos
  descriptors := by rw [hacc.descriptors_put]; exact hds
  holds := hacc.put key l pos hs.holds hleft

theorem decodeMember_reads (hacc : d.Accounts r holds) (hfull : c.membersSize ≤ r.nread)
    (hnf : nf < c.maxMembers) (hs : d.Reads r holds nf s t) :
    Flow.Related (d.Reads r holds (nf + 1)) (fun s t => ∃ nf, d.Reads r holds nf s t)
      (fun o _ => RejectedAll r o) (decodeMember r d nf s) (readMember r.wire nf t) := by
  have hstrit := hs.strit_le
  have hsize : c.messageSize = c.membersSize + 512 * c.maxMembers := by
    simp only [Config.messageSize, Config.strbufSize]; omega
  have hread : 8 * nf + 8 ≤ r.nread := by simp only [Config.membersSize] at hfull; omega
  have hreject := hacc.reject hs.holds
  obtain ⟨w, hw⟩ : ∃ w, wordAt r.wire nf = some w :=
    ⟨_, wordAt_isSome (by rw [r.wire_length]; exact hread)⟩
  simp only [decodeMember, readMember, r.member_eq hnf hread, hw]
  by_cases hnil : w = Kind.nil.word
  · simp only [hnil, if_true]
    exact .stop ⟨nf, hs⟩
  simp only [hnil, if_false, r.nextstr_eq (show d.strit s < c.messageSize by omega), hs.pool]
  cases hkey : takeFrame (r.wire.drop (d.strit s)) with
  | none => exact .exit hreject
  | some frame =>
      obtain ⟨key, pool⟩ := frame
      have hklen := takeFrame_length_le hkey
      obtain rfl := takeFrame_drop_rest hkey
      simp only [Fetch.flow]
      -- from here on the position is that behind the key
      generalize hpos : d.strit s + 1 + key.length = pos
      have hpos_le : pos + 256 ≤ c.membersSize + 512 * (nf + 1) := by omega
      have hpos_next : pos ≤ c.membersSize + 512 * (nf + 1) := by omega
      have hplain (l : Leaf) (hl : l.descriptor = []) :=
        hs.put hacc key l hpos_next hs.descriptors (by simp [hl])
      by_cases hnan : isSnan w = false
      · simp only [hnan, if_true, parseMember, Member.fill]
        exact .next (hplain (.number w) rfl)
      simp only [hnan, Bool.true_eq_false, if_false, parseMember]
      cases kindOf w with
      | none => exact .exit hreject
      | some kind =>
          cases kind with
          | booleanTrue => exact .next (hplain (.boolean true) rfl)
          | booleanFalse => exact .next (hplain (.boolean false) rfl)
          | nil => exact .exit hreject
          | string =>
              simp only [r.nextstr_eq (show pos < c.messageSize by omega)]
              cases hvalue : takeFrame (r.wire.drop pos) with
              | none => exact .exit hreject
              | some frame =>
                  obtain ⟨value, pool⟩ := frame
                  have hvlen := takeFrame_length_le hvalue
                  obtain rfl := takeFrame_drop_rest hvalue
                  exact .next (hs.put hacc key (.string value) (by omega) hs.descriptors (by rfl))
          | fileDescriptor =>
              have hds := hs.descriptors
              cases hfds : t.fds with
              | nil =>
                  rw [hfds] at hds
                  simp only [hds.next_nil, Member.fill]
                  exact .exit hreject
              | cons fd rest =>
                  rw [hfds] at hds
                  obtain ⟨ds, hnext, hds', hleft⟩ := hds.next_cons
                  simp only [hnext, Member.fill]
                  exact .next (hs.put hacc key (.fileDescriptor fd) hpos_next hds' hleft)
          | actorAddress =>
              have hds := hs.descriptors
              cases hfds : t.fds with
              | nil =>
                  rw [hfds] at hds
                  simp only [hds.next_nil, Member.fill]
                  exact .exit hreject
              | cons fd rest =>
                  rw [hfds] at hds
                  obtain ⟨ds, hnext, hds', hleft⟩ := hds.next_cons
                  simp only [hnext, Member.fill]
                  exact .next (hs.put hacc key (.ipcActorChan fd) hpos_next hds' hleft)

/-- A whole run either gives up with every descriptor closed, or has taken in
exactly the entries the packet spells. -/
theorem decode_run (hacc : d.Accounts r holds) (hfull : c.membersSize ≤ r.nread)
    (hs : d.Reads r holds 0 s ⟨r.wire.drop c.membersSize, r.fds, []⟩) :
    match (parseEntries r.wire c.maxMembers 0 (r.wire.drop c.membersSize)).bind
        (fillEntries · r.fds) with
    | none => ∃ o, run (decodeMember r d) c.maxMembers 0 s = .error o ∧ RejectedAll r o
    | some es => ∃ s', run (decodeMember r d) c.maxMembers 0 s = .ok s' ∧ holds s' es := by
  have hrun := run_related c.maxMembers 0 s _
    (fun nf s t hnf hs => decodeMember_reads hacc hfull (by omega) hs)
    (fun s t hs => ⟨_, hs⟩) hs
  have hspec := run_readMember r.wire c.maxMembers 0 ⟨r.wire.drop c.membersSize, r.fds, []⟩
  simp only at hspec
  split at hspec
  · rw [hspec] at hrun
    cases hd : run (decodeMember r d) c.maxMembers 0 s with
    | ok s' => rw [hd] at hrun; cases hrun
    | error o =>
        rw [hd] at hrun
        cases hrun with
        | error h => exact ⟨o, rfl, h⟩
  · obtain ⟨t', ht', hes⟩ := hspec
    rw [ht'] at hrun
    cases hd : run (decodeMember r d) c.maxMembers 0 s with
    | error o => rw [hd] at hrun; cases hrun
    | ok s' =>
        rw [hd] at hrun
        cases hrun with
        | ok h =>
            obtain ⟨nf, h⟩ := h
            refine ⟨s', rfl, ?_⟩
            simpa [hes] using h.holds

end Decoder

end Emilua.Ipc
