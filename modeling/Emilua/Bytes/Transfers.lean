import Emilua.Bytes.Calls

/-!
The operations of the `stream` and `file` modules that are composed of
`read_some`, `write_some` and the same at an offset: each moves a buffer in as
many pieces as the device makes of it.
-/
namespace Emilua.Bytes

/-- What `read_some(_at)` gives for so much room, and how much `write_some(_at)`
takes. A stream has no offsets. -/
structure Device (σ ε : Type) where
  give : σ → Option Int → Nat → σ × Except ε (List UInt8)
  take : σ → Option Int → List UInt8 → σ × Except ε Nat
  give_bounds : ∀ s o n s' p, 0 < n → give s o n = (s', .ok p) → 0 < p.length ∧ p.length ≤ n
  take_bounds : ∀ s o xs s' n, xs ≠ [] → take s o xs = (s', .ok n) → 0 < n ∧ n ≤ xs.length

inductive MoveError (ε : Type) where
  | device (err : ε)
  | span (err : Error)
  | stuck

/-- A method of a device that is given a buffer. -/
abbrev Move (σ ε : Type) := σ → Option Int → Memory → Span → σ × Memory × Except ε Nat

section
variable {σ ε : Type}

def Device.readSome (d : Device σ ε) : Move σ ε := fun s o m bs =>
  match d.give s o bs.size.toNat with
  | (s, .ok p) => (s, m.write bs.data p, .ok p.length)
  | (s, .error err) => (s, m, .error err)

def Device.writeSome (d : Device σ ε) : Move σ ε := fun s o m bs =>
  match d.take s o (bs.read m) with
  | (s, r) => (s, m, r)

/-- The loop of all these operations; `more` is its condition, on what has been
moved and what is left of the buffer. -/
def moveLoop (move : Move σ ε) (more : Int → Span → Bool) :
    Nat → σ → Option Int → Memory → Span → Int → σ × Memory × Except (MoveError ε) Int
  | 0, s, _, m, _, _ => (s, m, .error .stuck)
  | fuel + 1, s, offset, m, bs, total =>
      if more total bs then
        match move s offset m bs with
        | (s, m, .error err) => (s, m, .error (.device err))
        | (s, m, .ok n) =>
            match bs.slice (1 + n) bs.size with
            | .error err => (s, m, .error (.span err))
            | .ok rest => moveLoop move more fuel s (offset.map (· + n)) m rest (total + n)
      else (s, m, .ok total)

/-- `while #buffer > 0`; what is returned is the size of the buffer. -/
def moveAll (move : Move σ ε) (s : σ) (offset : Option Int) (m : Memory) (buffer : Span) :
    σ × Memory × Except (MoveError ε) Int :=
  let (s, m, r) := moveLoop move (fun _ bs => 0 < bs.size) (buffer.size.toNat + 1) s offset m buffer 0
  (s, m, r.map fun _ => buffer.size)

/-- `while total < minimum`, with a minimum that is not above the size. -/
def moveAtLeast (move : Move σ ε) (s : σ) (offset : Option Int) (m : Memory) (buffer : Span) (minimum : Int) :
    σ × Memory × Except (MoveError ε) Int :=
  let minimum := if minimum > buffer.size then buffer.size else minimum
  moveLoop move (fun total _ => total < minimum) (buffer.size.toNat + 1) s offset m buffer 0

variable (d : Device σ ε)

/-- `stream.read_all`. -/
def readAll (s : σ) (m : Memory) (buffer : Span) := moveAll d.readSome s none m buffer

/-- `stream.read_at_least`. -/
def readAtLeast (s : σ) (m : Memory) (buffer : Span) (minimum : Int) := moveAtLeast d.readSome s none m buffer minimum

/-- `file.read_all_at`. -/
def readAllAt (s : σ) (offset : Int) (m : Memory) (buffer : Span) := moveAll d.readSome s (some offset) m buffer

/-- `file.read_at_least_at`. -/
def readAtLeastAt (s : σ) (offset : Int) (m : Memory) (buffer : Span) (minimum : Int) :=
  moveAtLeast d.readSome s (some offset) m buffer minimum

/-- A string is copied into a span of its own first. -/
def writeWhole (junk : Nat → Nat → UInt8) (s : σ) (offset : Option Int) (m : Memory) :
    View → σ × Memory × Except (MoveError ε) Int
  | .window bs => moveAll d.writeSome s offset m bs
  | .literal str =>
      match byteSpanNonMemberAppend [.string str] with
      | .error err => (s, m, .error (.span err))
      | .ok (c, slices) =>
          let (m, bs) := c.run junk m
          moveAll d.writeSome s offset (appendViews bs.data 0 m slices) bs

/-- `stream.write_all`. -/
def writeAll (junk : Nat → Nat → UInt8) (s : σ) (m : Memory) (buffer : View) := writeWhole d junk s none m buffer

/-- `stream.write_at_least`. -/
def writeAtLeast (s : σ) (m : Memory) (buffer : Span) (minimum : Int) := moveAtLeast d.writeSome s none m buffer minimum

/-- `file.write_all_at`. -/
def writeAllAt (junk : Nat → Nat → UInt8) (s : σ) (offset : Int) (m : Memory) (buffer : View) :=
  writeWhole d junk s (some offset) m buffer

/-- `file.write_at_least_at`. -/
def writeAtLeastAt (s : σ) (offset : Int) (m : Memory) (buffer : Span) (minimum : Int) :=
  moveAtLeast d.writeSome s (some offset) m buffer minimum

end

/-! The rounds of the loop. -/

section
variable {σ ε : Type} {move : Move σ ε} {more : Int → Span → Bool}

/-- Rounds that succeed, one after the other. -/
inductive Moves (move : Move σ ε) : σ → Option Int → Memory → Span → List Nat → σ → Memory → Span → Prop
  | nil (s : σ) (o : Option Int) (m : Memory) (bs : Span) : Moves move s o m bs [] s m bs
  | cons {s s₁ s' : σ} {o : Option Int} {m m₁ m' : Memory} {bs bs₁ bs' : Span} {n : Nat} {ns : List Nat}
      (hpos : 0 < bs.size) (hmove : move s o m bs = (s₁, m₁, .ok n)) (hslice : bs.slice (1 + n) bs.size = .ok bs₁)
      (hrest : Moves move s₁ (o.map (· + (n : Int))) m₁ bs₁ ns s' m' bs') : Moves move s o m bs (n :: ns) s' m' bs'

/-- A round moves something, and no more than there is. -/
def Moderate (move : Move σ ε) : Prop :=
  ∀ s o m bs s' m' n, bs.Within m → 0 < bs.size → move s o m bs = (s', m', .ok n) →
    0 < n ∧ (n : Int) ≤ bs.size ∧ m.Grows m'

/-- The loop ends when the goal is reached, or with the first error. -/
theorem loop_moves (hmoderate : Moderate move) {size goal : Int} (hgoal : goal ≤ size)
    (hmore : ∀ total (bs : Span), total + bs.size = size → (more total bs = true ↔ total < goal))
    {fuel : Nat} {s : σ} {o : Option Int} {m : Memory} {bs : Span} {total : Int} (h : bs.Within m)
    (hsize : total + bs.size = size) (hfuel : bs.size.toNat < fuel) :
    ∃ ns s' m' bs', Moves move s o m bs ns s' m' bs' ∧ (∀ k < ns.length, total + ((ns.take k).sum : Int) < goal) ∧
      ((goal ≤ total + ns.sum ∧ moveLoop move more fuel s o m bs total = (s', m', .ok (total + ns.sum))) ∨
        (total + ns.sum < goal ∧ ∃ s'' m'' err,
          move s' (o.map (· + (ns.sum : Int))) m' bs' = (s'', m'', .error err) ∧
            moveLoop move more fuel s o m bs total = (s'', m'', .error (.device err)))) := by
  induction fuel generalizing s o m bs total with
  | zero => exact absurd hfuel (Nat.not_lt_zero _)
  | succ fuel ih =>
      have hnil : total + (([] : List Nat).sum : Int) = total := by simp
      have hkeep : o.map (· + (([] : List Nat).sum : Int)) = o := by
        cases o <;> simp
      by_cases hgo : more total bs = true
      · have hless := (hmore total bs hsize).mp hgo
        rcases hmoved : move s o m bs with ⟨s₁, m₁, err | n⟩
        · refine ⟨[], s, m, bs, .nil .., nofun, .inr ⟨by rwa [hnil], s₁, m₁, err, ?_, ?_⟩⟩
          · rw [hkeep]
            exact hmoved
          · rw [moveLoop, if_pos hgo, hmoved]
        · have hpos : 0 < bs.size := by omega
          obtain ⟨hn, hle, hgrows⟩ := hmoderate s o m bs s₁ m₁ n h hpos hmoved
          have hcap := h.size_le
          obtain ⟨rest, hslice, hin, hrest, -⟩ := slice_spec h (1 + n) bs.size (by omega) (by omega) hcap
          obtain ⟨ns, s', m', bs', hmoves, hbefore, hend⟩ := @ih s₁ (o.map (· + (n : Int))) m₁ rest (total + n)
            (hin.grow hgrows) (by omega) (by omega)
          have hsum : ∀ ks : List Nat, total + ((n :: ks).sum : Int) = total + n + ks.sum := by
            intro ks
            rw [List.sum_cons, Nat.cast_add, Int.add_assoc]
          have hoffset : o.map (· + ((n :: ns).sum : Int)) = (o.map (· + (n : Int))).map (· + (ns.sum : Int)) := by
            rw [List.sum_cons, Nat.cast_add, Option.map_map]
            congr 1
            funext i
            exact (Int.add_assoc ..).symm
          refine ⟨n :: ns, s', m', bs', .cons hpos hmoved hslice hmoves, fun k hk => ?_, ?_⟩
          · cases k with
            | zero => simpa using hless
            | succ k =>
                rw [List.take_succ_cons, hsum]
                exact hbefore k (Nat.lt_of_succ_lt_succ hk)
          · rw [hsum, hoffset, moveLoop, if_pos hgo, hmoved]
            simp only [hslice]
            exact hend
      · have hstop : goal ≤ total := Int.not_lt.mp (mt (hmore total bs hsize).mpr hgo)
        exact ⟨[], s, m, bs, .nil .., nofun, .inl ⟨by rwa [hnil], by rw [moveLoop, if_neg hgo, hnil]⟩⟩

end

/-! What a device gives, and where it goes. -/

section
variable {σ ε : Type} {d : Device σ ε} {more : Int → Span → Bool}

/-- Pieces that a device gives one after the other, each at the offset that those
before it have reached and for the room that they have left. -/
inductive Given (d : Device σ ε) : σ → Option Int → Nat → List (List UInt8) → σ → Prop
  | nil (s : σ) (o : Option Int) (room : Nat) : Given d s o room [] s
  | cons {s s₁ s' : σ} {o : Option Int} {room : Nat} {p : List UInt8} {ps : List (List UInt8)}
      (hgive : d.give s o room = (s₁, .ok p)) (hrest : Given d s₁ (o.map (· + (p.length : Int))) (room - p.length) ps s') :
      Given d s o room (p :: ps) s'

/-- Pieces of `xs` that a device takes one after the other, each at the offset
that those before it have reached. -/
inductive Taken (d : Device σ ε) : σ → Option Int → List UInt8 → List (List UInt8) → σ → Prop
  | nil (s : σ) (o : Option Int) (xs : List UInt8) : Taken d s o xs [] s
  | cons {s s₁ s' : σ} {o : Option Int} {xs : List UInt8} {n : Nat} {ps : List (List UInt8)}
      (htake : d.take s o xs = (s₁, .ok n)) (hrest : Taken d s₁ (o.map (· + (n : Int))) (xs.drop n) ps s') :
      Taken d s o xs (xs.take n :: ps) s'

/-- `bs` is what is left of `whole` from byte `k` on. -/
structure Part (whole : Span) (k : Nat) (bs : Span) : Prop where
  size : bs.size = whole.size - k
  capacity : bs.capacity = whole.capacity - k
  data : bs.capacity ≠ 0 → bs.data = whole.data.map (·.add k)

theorem part_self (bs : Span) : Part bs 0 bs := by
  refine ⟨by simp, by simp, fun _ => ?_⟩
  cases bs.data <;> rfl

theorem Part.slice {whole bs bs₁ : Span} {m : Memory} {k n : Nat} (h : Part whole k bs) (hin : bs.Within m) (hn : (n : Int) ≤ bs.size)
    (hslice : bs.slice (1 + n) bs.size = .ok bs₁) : Part whole (k + n) bs₁ ∧ bs₁.Within m := by
  have hcap := hin.size_le
  obtain ⟨rest, hrest, hrestin, hsize, hrestcap, -, hdata⟩ := slice_spec hin (1 + n) bs.size (by omega) (by omega) hcap
  obtain rfl := Except.ok.inj (hrest.symm.trans hslice)
  have hwsize := h.size
  have hwcap := h.capacity
  refine ⟨⟨by omega, by omega, fun hne => ?_⟩, hrestin⟩
  have hoff : (1 + (n : Int) - 1).toNat = n := by omega
  rw [hdata hne, h.data (by omega), hoff, Option.map_map]
  congr 1
  funext p
  simp only [Function.comp, Ptr.add, Nat.add_assoc]

theorem give_ok {s s' : σ} {o : Option Int} {m m' : Memory} {bs : Span} {n : Nat}
    (h : d.readSome s o m bs = (s', m', .ok n)) :
    ∃ p, d.give s o bs.size.toNat = (s', .ok p) ∧ m' = m.write bs.data p ∧ n = p.length := by
  unfold Device.readSome at h
  rcases hgive : d.give s o bs.size.toNat with ⟨s₁, err | p⟩
  · rw [hgive] at h
    cases h
  · rw [hgive] at h
    cases h
    exact ⟨p, rfl, rfl, rfl⟩

theorem give_error {s s' : σ} {o : Option Int} {m m' : Memory} {bs : Span} {err : ε}
    (h : d.readSome s o m bs = (s', m', .error err)) : d.give s o bs.size.toNat = (s', .error err) ∧ m' = m := by
  unfold Device.readSome at h
  rcases hgive : d.give s o bs.size.toNat with ⟨s₁, err' | p⟩
  · rw [hgive] at h
    cases h
    exact ⟨rfl, rfl⟩
  · rw [hgive] at h
    cases h

theorem readSome_moderate (d : Device σ ε) : Moderate d.readSome := by
  intro s o m bs s' m' n hin hpos hmove
  obtain ⟨p, hgive, rfl, rfl⟩ := give_ok hmove
  have hcap := hin.size_le
  obtain ⟨hp, hle⟩ := d.give_bounds s o bs.size.toNat s' p (by omega) hgive
  refine ⟨hp, by omega, grows_write fun q hq => ?_⟩
  obtain ⟨-, hroom⟩ := hin.inside q hq
  omega

/-- The pieces stand in the buffer in the order they have been given in. -/
theorem moves_given {s s' : σ} {o : Option Int} {m m' : Memory} {whole bs bs' : Span} {k : Nat} {ns : List Nat}
    (hmoves : Moves d.readSome s o m bs ns s' m' bs') (hwhole : whole.Within m) (hpart : Part whole k bs) (hin : bs.Within m) :
    ∃ pieces : List (List UInt8), pieces.map List.length = ns ∧ Given d s o bs.size.toNat pieces s' ∧ m.Grows m' ∧
      whole.window m' = splice (whole.window m) k pieces.flatten ∧ Part whole (k + ns.sum) bs' ∧ bs'.Within m' := by
  induction hmoves generalizing k with
  | nil s o m bs =>
      refine ⟨[], rfl, .nil .., .refl m, ?_, hpart, hin⟩
      simp [splice]
  | @cons s s₁ s' o m m₁ m' bs bs₁ bs' n ns hpos hmove hslice hrest ih =>
      obtain ⟨hn, hle, hgrows⟩ := readSome_moderate d s o m bs s₁ m₁ n hin hpos hmove
      obtain ⟨p, hgive, rfl, rfl⟩ := give_ok hmove
      obtain ⟨hpart₁, hin₁⟩ := hpart.slice hin hle hslice
      obtain ⟨pieces, hlens, hgiven, hgrows', hwindow, hpart', hin'⟩ :=
        ih (hwhole.grow hgrows) hpart₁ (hin₁.grow hgrows)
      have hcap := hin.size_le
      have hwcap := hpart.capacity
      have hlen := hwhole.window_length
      have hfirst : whole.window (m.write bs.data p) = splice (whole.window m) k p := by
        rw [hpart.data (by omega)]
        exact window_write hwhole k p (by omega)
      have hroom : bs₁.size.toNat = bs.size.toNat - p.length := by
        have hsize := hpart.size
        have hsize₁ := hpart₁.size
        omega
      rw [hroom] at hgiven
      refine ⟨p :: pieces, by rw [List.map_cons, hlens], .cons hgive hgiven, hgrows.trans hgrows', ?_, ?_, hin'⟩
      · rw [hwindow, hfirst, List.flatten_cons, splice_append (by omega)]
      · rw [List.sum_cons, ← Nat.add_assoc]
        exact hpart'

theorem writeSome_moderate (d : Device σ ε) : Moderate d.writeSome := by
  intro s o m bs s' m' n hin hpos hmove
  have hlen := hin.read_length
  have hne : bs.read m ≠ [] := by
    intro hnil
    rw [hnil, List.length_nil] at hlen
    omega
  unfold Device.writeSome at hmove
  rcases htake : d.take s o (bs.read m) with ⟨s₁, r⟩
  rw [htake] at hmove
  cases hmove
  obtain ⟨hn, hle⟩ := d.take_bounds s o (bs.read m) s' n hne htake
  exact ⟨hn, by omega, .refl m⟩

/-- The pieces are taken out of the buffer in order. -/
theorem moves_taken {s s' : σ} {o : Option Int} {m m' : Memory} {bs bs' : Span} {ns : List Nat}
    (hmoves : Moves d.writeSome s o m bs ns s' m' bs') (hin : bs.Within m) :
    ∃ pieces : List (List UInt8), pieces.map List.length = ns ∧ Taken d s o (bs.read m) pieces s' ∧ m' = m ∧
      bs.read m = pieces.flatten ++ bs'.read m ∧ bs'.Within m := by
  induction hmoves with
  | nil s o m bs => exact ⟨[], rfl, .nil .., rfl, rfl, hin⟩
  | @cons s s₁ s' o m m₁ m' bs bs₁ bs' n ns hpos hmove hslice hrest ih =>
      obtain ⟨hn, hle, -⟩ := writeSome_moderate d s o m bs s₁ m₁ n hin hpos hmove
      unfold Device.writeSome at hmove
      rcases htake : d.take s o (bs.read m) with ⟨s₂, r⟩
      rw [htake] at hmove
      cases hmove
      have hcap := hin.size_le
      have hlen := hin.read_length
      obtain ⟨rest, hrestslice, hin₁, hsize, -, hwindow, -⟩ := slice_spec hin (1 + n) bs.size (by omega) (by omega) hcap
      obtain rfl := Except.ok.inj (hrestslice.symm.trans hslice)
      have hread : rest.read m = (bs.read m).drop n := by
        have hoff : (1 + (n : Int) - 1).toNat = n := by omega
        rw [hin₁.read_eq, hwindow, hsize, hoff, hin.read_eq, List.drop_take]
        congr 1
        omega
      obtain ⟨pieces, hlens, htaken, hm, hcat, hin'⟩ := ih hin₁
      rw [hread] at htaken hcat
      have hfirst : ((bs.read m).take n).length = n := by
        rw [List.length_take]
        omega
      refine ⟨(bs.read m).take n :: pieces, by rw [List.map_cons, hlens, hfirst], .cons htake htaken, hm, ?_, hin'⟩
      rw [List.flatten_cons, List.append_assoc, ← hcat, List.take_append_drop]

/-! The operations. -/

/-- A call that reads has filled `bs` from its beginning with what it was given,
one piece after the other, until it had `goal` bytes or the device failed. -/
def Reads (d : Device σ ε) (s : σ) (o : Option Int) (m : Memory) (bs : Span) (goal : Int)
    (x : σ × Memory × Except (MoveError ε) Int) : Prop :=
  ∃ (pieces : List (List UInt8)) (s₁ : σ), Given d s o bs.size.toNat pieces s₁ ∧ m.Grows x.2.1 ∧
    bs.window x.2.1 = splice (bs.window m) 0 pieces.flatten ∧ (pieces.flatten.length : Int) ≤ bs.size ∧
    (∀ k < pieces.length, ((pieces.take k).flatten.length : Int) < goal) ∧
    ((goal ≤ pieces.flatten.length ∧ x.1 = s₁ ∧ x.2.2 = .ok (pieces.flatten.length : Int)) ∨
      ((pieces.flatten.length : Int) < goal ∧ ∃ err,
        d.give s₁ (o.map (· + (pieces.flatten.length : Int))) (bs.size.toNat - pieces.flatten.length) = (x.1, .error err) ∧
        x.2.2 = .error (.device err)))

/-- A call that writes has passed on the first bytes of `xs`, one piece after the
other, until it had passed on `goal` bytes or the device failed. -/
def Writes (d : Device σ ε) (s : σ) (o : Option Int) (xs : List UInt8) (goal : Int)
    (x : σ × Memory × Except (MoveError ε) Int) : Prop :=
  ∃ (pieces : List (List UInt8)) (s₁ : σ), Taken d s o xs pieces s₁ ∧ pieces.flatten <+: xs ∧
    (∀ k < pieces.length, ((pieces.take k).flatten.length : Int) < goal) ∧
    ((goal ≤ pieces.flatten.length ∧ x.1 = s₁ ∧ x.2.2 = .ok (pieces.flatten.length : Int)) ∨
      ((pieces.flatten.length : Int) < goal ∧ ∃ err,
        d.take s₁ (o.map (· + (pieces.flatten.length : Int))) (xs.drop pieces.flatten.length) = (x.1, .error err) ∧
        x.2.2 = .error (.device err)))

theorem sum_lengths {pieces : List (List UInt8)} {ns : List Nat} (h : pieces.map List.length = ns) (k : Nat) :
    (ns.take k).sum = (pieces.take k).flatten.length := by
  rw [← h, ← List.map_take, List.length_flatten]

theorem sum_lengths_all {pieces : List (List UInt8)} {ns : List Nat} (h : pieces.map List.length = ns) :
    ns.sum = pieces.flatten.length := by
  rw [← h, List.length_flatten]

/-- The condition of a loop that goes on to the goal. -/
def Aims (more : Int → Span → Bool) (size goal : Int) : Prop :=
  ∀ total (bs : Span), total + bs.size = size → (more total bs = true ↔ total < goal)

theorem reads_loop (d : Device σ ε) (s : σ) (o : Option Int) {m : Memory} {bs : Span} (h : bs.Within m) {goal : Int}
    (hgoal : goal ≤ bs.size) (hmore : Aims more bs.size goal) :
    Reads d s o m bs goal (moveLoop d.readSome more (bs.size.toNat + 1) s o m bs 0) := by
  obtain ⟨ns, s', m', bs', hmoves, hbefore, hend⟩ := @loop_moves σ ε d.readSome more (readSome_moderate d) bs.size goal hgoal
    hmore (bs.size.toNat + 1) s o m bs 0 h (Int.zero_add _) (Nat.lt_succ_self _)
  obtain ⟨pieces, hlens, hgiven, hgrows, hwindow, hpart, hin⟩ := moves_given hmoves h (part_self bs) h
  have hsum := sum_lengths_all hlens
  have hnonneg := hin.size_nonneg
  have hsize := hpart.size
  rw [Nat.zero_add] at hsize
  simp only [Int.zero_add, hsum] at hbefore hend hsize
  have hcount : ns.length = pieces.length := by rw [← hlens, List.length_map]
  have hprefix : ∀ k < pieces.length, ((pieces.take k).flatten.length : Int) < goal := by
    intro k hk
    have hless := hbefore k (hcount ▸ hk)
    rwa [sum_lengths hlens] at hless
  rcases hend with ⟨hdone, hloop⟩ | ⟨hless, s'', m'', err, hfail, hloop⟩
  · rw [hloop]
    exact ⟨pieces, s', hgiven, hgrows, hwindow, by omega, hprefix, .inl ⟨hdone, rfl, rfl⟩⟩
  · obtain ⟨hgive, rfl⟩ := give_error hfail
    have hroom : bs'.size.toNat = bs.size.toNat - pieces.flatten.length := by omega
    rw [hroom] at hgive
    rw [hloop]
    exact ⟨pieces, s', hgiven, hgrows, hwindow, by omega, hprefix, .inr ⟨hless, err, hgive, rfl⟩⟩

theorem writes_loop (d : Device σ ε) (s : σ) (o : Option Int) {m : Memory} {bs : Span} (h : bs.Within m) {goal : Int}
    (hgoal : goal ≤ bs.size) (hmore : Aims more bs.size goal) :
    Writes d s o (bs.read m) goal (moveLoop d.writeSome more (bs.size.toNat + 1) s o m bs 0) := by
  obtain ⟨ns, s', m', bs', hmoves, hbefore, hend⟩ := @loop_moves σ ε d.writeSome more (writeSome_moderate d) bs.size goal hgoal
    hmore (bs.size.toNat + 1) s o m bs 0 h (Int.zero_add _) (Nat.lt_succ_self _)
  obtain ⟨pieces, hlens, htaken, rfl, hcat, hin⟩ := moves_taken hmoves h
  have hsum := sum_lengths_all hlens
  simp only [Int.zero_add, hsum] at hbefore hend
  have hcount : ns.length = pieces.length := by rw [← hlens, List.length_map]
  have hprefix : ∀ k < pieces.length, ((pieces.take k).flatten.length : Int) < goal := by
    intro k hk
    have hless := hbefore k (hcount ▸ hk)
    rwa [sum_lengths hlens] at hless
  have hfront : pieces.flatten <+: bs.read m' := ⟨_, hcat.symm⟩
  rcases hend with ⟨hdone, hloop⟩ | ⟨hless, s'', m'', err, hfail, hloop⟩
  · rw [hloop]
    exact ⟨pieces, s', htaken, hfront, hprefix, .inl ⟨hdone, rfl, rfl⟩⟩
  · have hrest : bs'.read m' = (bs.read m').drop pieces.flatten.length := by
      rw [hcat, List.drop_left]
    unfold Device.writeSome at hfail
    rcases htake : d.take s' (o.map (· + (pieces.flatten.length : Int))) (bs'.read m') with ⟨s₂, r⟩
    rw [htake] at hfail
    cases hfail
    rw [hrest] at htake
    rw [hloop]
    exact ⟨pieces, s', htaken, hfront, hprefix, .inr ⟨hless, err, htake, rfl⟩⟩

theorem aims_all (size : Int) : Aims (fun _ bs => 0 < bs.size) size size := by
  intro total bs hsize
  rw [decide_eq_true_iff]
  omega

theorem aims_at_least (size goal : Int) : Aims (fun total _ => total < goal) size goal := fun _ _ _ => decide_eq_true_iff

theorem moveAll_reads (d : Device σ ε) (s : σ) (o : Option Int) {m : Memory} {bs : Span} (h : bs.Within m) :
    Reads d s o m bs bs.size (moveAll d.readSome s o m bs) := by
  obtain ⟨pieces, s', hgiven, hgrows, hwindow, hle, hprefix, hend⟩ := reads_loop d s o h le_rfl (aims_all bs.size)
  refine ⟨pieces, s', hgiven, hgrows, hwindow, hle, hprefix, ?_⟩
  rcases hend with ⟨hdone, hstate, hresult⟩ | ⟨hless, err, hgive, hresult⟩
  · refine .inl ⟨hdone, hstate, ?_⟩
    simp only [moveAll, hresult, Except.map]
    rw [Int.le_antisymm hdone hle]
  · refine .inr ⟨hless, err, hgive, ?_⟩
    simp only [moveAll, hresult, Except.map]

theorem moveAll_writes (d : Device σ ε) (s : σ) (o : Option Int) {m : Memory} {bs : Span} (h : bs.Within m) :
    Writes d s o (bs.read m) bs.size (moveAll d.writeSome s o m bs) := by
  obtain ⟨pieces, s', htaken, hfront, hprefix, hend⟩ := writes_loop d s o h le_rfl (aims_all bs.size)
  have hle := hfront.length_le
  have hlen := h.read_length
  have hnonneg := h.size_nonneg
  refine ⟨pieces, s', htaken, hfront, hprefix, ?_⟩
  rcases hend with ⟨hdone, hstate, hresult⟩ | ⟨hless, err, htake, hresult⟩
  · refine .inl ⟨hdone, hstate, ?_⟩
    have hall : bs.size = pieces.flatten.length := by omega
    simp only [moveAll, hresult, Except.map]
    rw [hall]
  · refine .inr ⟨hless, err, htake, ?_⟩
    simp only [moveAll, hresult, Except.map]

/-- The minimum is not above the size of the buffer. -/
theorem clamp_eq (minimum size : Int) : (if minimum > size then size else minimum) = min minimum size := by
  split <;> omega

theorem moveAtLeast_reads (d : Device σ ε) (s : σ) (o : Option Int) {m : Memory} {bs : Span} (h : bs.Within m) (minimum : Int) :
    Reads d s o m bs (min minimum bs.size) (moveAtLeast d.readSome s o m bs minimum) := by
  simp only [moveAtLeast, clamp_eq]
  exact reads_loop d s o h (min_le_right _ _) (aims_at_least _ _)

theorem moveAtLeast_writes (d : Device σ ε) (s : σ) (o : Option Int) {m : Memory} {bs : Span} (h : bs.Within m) (minimum : Int) :
    Writes d s o (bs.read m) (min minimum bs.size) (moveAtLeast d.writeSome s o m bs minimum) := by
  simp only [moveAtLeast, clamp_eq]
  exact writes_loop d s o h (min_le_right _ _) (aims_at_least _ _)

/-- The size of a string is a `lua_Integer`. -/
def View.Within (m : Memory) : View → Prop
  | .literal str => (str.length : Int) ≤ intMax
  | .window bs => bs.Within m

theorem appended_string (junk : Nat → Nat → UInt8) (m : Memory) {str : List UInt8} (h : (str.length : Int) ≤ intMax) :
    ∃ c slices, byteSpanNonMemberAppend [.string str] = .ok (c, slices) ∧ (c.run junk m).2.size = str.length ∧
      (c.run junk m).2.Within (appendViews (c.run junk m).2.data 0 (c.run junk m).1 slices) ∧
      (c.run junk m).2.read (appendViews (c.run junk m).2.data 0 (c.run junk m).1 slices) = str := by
  have htotal : addSizes 0 [.literal str] = .ok (str.length : Int) := by
    simp [addSizes, View.size, h]
  simp only [byteSpanNonMemberAppend, tailSlices, Arg.viewOr, Arg.view, bind, Except.bind, htotal]
  by_cases hempty : (str.length : Int) = 0
  · have hnil : str = [] := List.eq_nil_of_length_eq_zero (by omega)
    subst hnil
    exact ⟨.share .null, [], rfl, rfl, within_null m, rfl⟩
  · rw [if_neg hempty]
    refine ⟨_, _, rfl, rfl, ?_⟩
    have hin := within_allocate m junk (show (0 : Int) ≤ str.length by omega) le_rfl
    have hne : (View.literal str).size ≠ 0 := by
      change str.length ≠ 0
      omega
    generalize hrun : (Construct.allocate (str.length : Int) str.length).run junk m = made at hin
    have hmade : made.2.size = str.length ∧ made.2.capacity = str.length := by
      rw [← hrun]
      exact ⟨rfl, rfl⟩
    have hwritten : appendViews made.2.data 0 made.1 [.literal str] = made.1.write (made.2.data.map (·.add 0)) str := by
      rw [appendViews, if_neg hne, appendViews]
      rfl
    have hwindow := window_write hin 0 str (by omega)
    have hgrows : made.1.Grows (made.1.write (made.2.data.map (·.add 0)) str) := by
      refine grows_write fun p hp => ?_
      obtain ⟨q, hq, rfl⟩ := Option.map_eq_some_iff.mp hp
      obtain ⟨-, hroom⟩ := hin.inside q hq
      simp only [Ptr.add]
      omega
    have hin' := hin.grow hgrows
    rw [hwritten]
    refine ⟨hin', ?_⟩
    have htake := take_splice (made.2.window made.1) str (Nat.zero_le _)
    rw [Nat.zero_add, List.take_zero, List.nil_append] at htake
    rw [hin'.read_eq, hwindow, hmade.1, Int.toNat_natCast, htake]

theorem writeWhole_writes (d : Device σ ε) (junk : Nat → Nat → UInt8) (s : σ) (o : Option Int) {m : Memory} {v : View}
    (h : v.Within m) : Writes d s o (v.read m) v.size (writeWhole d junk s o m v) := by
  cases v with
  | window bs =>
      have hin : bs.Within m := h
      have hsize : ((View.window bs).size : Int) = bs.size := Int.toNat_of_nonneg hin.size_nonneg
      rw [hsize]
      exact moveAll_writes d s o hin
  | literal str =>
      obtain ⟨c, slices, happend, hsize, hin, hread⟩ := appended_string junk m h
      have hwrites := moveAll_writes d s o hin
      rw [hsize, hread] at hwrites
      simp only [writeWhole, happend]
      exact hwrites

end

/-- Gives its bytes by two until it has none, and takes bytes by two. -/
def pairs : Device (List UInt8) Unit where
  give xs _ n := if xs = [] then (xs, .error ()) else (xs.drop (min 2 n), .ok (xs.take (min 2 n)))
  take xs _ ys := (xs ++ ys.take 2, .ok (min 2 ys.length))
  give_bounds xs o n s' p hn h := by
    split at h
    · cases h
    · rename_i hne
      have hpos := List.length_pos_iff.mpr hne
      cases h
      rw [List.length_take]
      omega
  take_bounds xs o ys s' n hne h := by
    have hpos := List.length_pos_iff.mpr hne
    cases h
    omega

end Emilua.Bytes
