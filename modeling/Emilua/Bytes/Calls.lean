import Emilua.Bytes.Contents
import Emilua.Bytes.Scanner

/-!
What one call of `get_line` can do, for every configuration of the scanner: the
record returned last is dropped, the loop fills the buffer behind what it has,
and leaves in one of four ways.
-/
namespace Emilua.Bytes

/-- A slice from the first byte on has the window it is taken from. -/
theorem slice_front_window {bs bs' : Span} {stop : Int} (h : bs.slice 1 stop = .ok bs') (m : Memory) :
    bs'.window m = bs.window m := by
  have hzero : (1 - 1 : Int).toNat = 0 := rfl
  unfold Span.slice at h
  split at h
  · cases h
  · split at h <;> cases h
    · rename_i hcap
      have hnone : bs.capacity.toNat = 0 := by omega
      unfold Span.window
      rw [hnone]
      cases bs.data <;> rfl
    · unfold Span.window
      dsimp only
      rw [Int.sub_add_cancel, hzero]
      cases bs.data <;> rfl

namespace Reader
variable {R : Type}

/-- The bytes behind the current record in the buffer. -/
def pending (w : Reader R) : List UInt8 :=
  ((w.self.buffer.window w.mem).take w.self.bufferUsed.toNat).drop w.self.recordSize.toNat

/-- What has not been returned, in the buffer and in the stream. -/
def ahead (w : Reader R) : List UInt8 := w.pending ++ streamBytes w.stream

/-- Between two calls. -/
structure Sound (w : Reader R) : Prop where
  within : w.self.buffer.Within w.mem
  recordSize : 0 ≤ w.self.recordSize ∧ w.self.recordSize ≤ w.self.bufferUsed
  used : w.self.bufferUsed ≤ w.self.buffer.size

/-- In the loop of `get_line`: `wnd` has what has been read of `rest`. -/
structure Filled (rest : List UInt8) (w : Reader R) (wnd : Span) : Prop where
  within : w.self.buffer.Within w.mem
  recordSize : w.self.recordSize = 0
  used : w.self.bufferUsed ≤ w.self.buffer.size
  wnd_within : wnd.Within w.mem
  wnd_size : wnd.size = w.self.bufferUsed
  wnd_read : wnd.read w.mem = (w.self.buffer.window w.mem).take w.self.bufferUsed.toNat
  rest : wnd.read w.mem ++ streamBytes w.stream = rest

/-- The current record is dropped: what is behind it moves to the front. -/
def shift (w : Reader R) : Except Error (Reader R × Span) := do
  let wnd ← w.self.buffer.slice 1 (w.self.bufferUsed - w.self.recordSize)
  let src ← w.self.buffer.slice (1 + w.self.recordSize) w.self.buffer.size
  .ok ({ w with
    mem := (wnd.copy w.mem (.window src)).1
    self := { w.self with bufferUsed := w.self.bufferUsed - w.self.recordSize, recordSize := 0 } }, wnd)

variable {w : Reader R} {wnd : Span} {rest : List UInt8}

theorem pending_length (h : w.Sound) :
    w.pending.length = (w.self.bufferUsed - w.self.recordSize).toNat := by
  have hlength := h.within.window_length
  have hcap := h.within.size_le
  have hused := h.used
  have hsize := h.recordSize
  rw [pending, List.length_drop, List.length_take]
  omega

theorem Filled.sound (h : w.Filled rest wnd) : w.Sound where
  within := h.within
  recordSize := by
    have hsize := h.wnd_size
    have hnonneg := h.wnd_within.size_nonneg
    rw [h.recordSize]
    omega
  used := h.used

theorem Filled.pending_eq (h : w.Filled rest wnd) : w.pending = wnd.read w.mem := by
  have hzero : (0 : Int).toNat = 0 := rfl
  rw [pending, h.recordSize, hzero, List.drop_zero, h.wnd_read]

theorem Filled.ahead_eq (h : w.Filled rest wnd) : w.ahead = rest := by
  rw [ahead, h.pending_eq]
  exact h.rest

theorem Filled.used_nonneg (h : w.Filled rest wnd) : 0 ≤ w.self.bufferUsed :=
  h.wnd_size ▸ h.wnd_within.size_nonneg

/-- The window over what is left of a buffer once its current record is gone. -/
theorem shift_spec (h : w.Sound) :
    ∃ m wnd, w.shift = .ok (⟨m, w.stream, { w.self with
        bufferUsed := w.self.bufferUsed - w.self.recordSize, recordSize := 0 }⟩, wnd) ∧
      w.self.buffer.slice 1 (w.self.bufferUsed - w.self.recordSize) = .ok wnd ∧
      w.mem.Grows m ∧
      Filled w.ahead ⟨m, w.stream, { w.self with
        bufferUsed := w.self.bufferUsed - w.self.recordSize, recordSize := 0 }⟩ wnd := by
  obtain ⟨hsize, hle⟩ := h.recordSize
  have hused := h.used
  have hcap := h.within.size_le
  have hlength := h.within.window_length
  obtain ⟨wnd, hwnd, hin, hwsize, hwcap, hwindow, hdata⟩ := slice_spec h.within 1
    (w.self.bufferUsed - w.self.recordSize) le_rfl (by omega) (by omega)
  have hzero : (1 - 1 : Int).toNat = 0 := rfl
  rw [hzero, List.drop_zero] at hwindow
  rw [hzero] at hdata
  obtain ⟨src, hsrc, hsrcin, hsrcsize, -, hsrcwindow, -⟩ := slice_spec h.within (1 + w.self.recordSize)
    w.self.buffer.size (by omega) (by omega) hcap
  have hmove : (src.read w.mem).take wnd.size.toNat = w.pending := by
    rw [hsrcin.read_eq, hsrcwindow, List.take_take, pending, List.drop_take]
    congr 1
    · omega
    · congr 1
      omega
  have hlen := pending_length h
  obtain ⟨hgrows, hcopied⟩ := copy_spec hin hsrcin
  have hwithin := h.within.grow hgrows
  have hwin := hin.grow hgrows
  have hmem : (wnd.copy w.mem (.window src)).1 = w.mem.write wnd.data w.pending := by
    rw [copy_eq hsrcin, hmove]
  generalize hm : (wnd.copy w.mem (.window src)).1 = m at hmem hgrows hwithin hwin hcopied
  have hshared := slice_front_window hwnd m
  have hnew : (w.self.buffer.window m).take (w.self.bufferUsed - w.self.recordSize).toNat = w.pending := by
    have htake := take_splice (wnd.window w.mem) w.pending (Nat.zero_le _)
    rw [Nat.zero_add, List.take_zero, List.nil_append, hlen] at htake
    rw [← hshared, hcopied, hmove]
    exact htake
  have hread : wnd.read m = w.pending := by
    rw [hwin.read_eq, hshared, hwsize, ← hnew, Int.sub_add_cancel]
  refine ⟨m, wnd, ?_, hwnd, hgrows, ⟨hwithin, rfl, ?_, hwin, ?_, hread.trans hnew.symm, ?_⟩⟩
  · simp only [shift, hwnd, hsrc, bind, Except.bind, hm]
  · change w.self.bufferUsed - w.self.recordSize ≤ w.self.buffer.size
    omega
  · change wnd.size = w.self.bufferUsed - w.self.recordSize
    omega
  · rw [hread]
    rfl

theorem newSpan_within {size : Int} {c : Construct} (junk : Nat → Nat → UInt8) (m : Memory) (h : newSpan size size = .ok c) :
    (c.run junk m).2.Within (c.run junk m).1 ∧ (c.run junk m).2.size = size ∧ 0 ≤ size := by
  unfold newSpan at h
  split at h
  · cases h
  · split at h
    · rename_i hzero
      cases h
      exact ⟨within_null m, hzero.symm, by omega⟩
    · cases h
      exact ⟨within_allocate m junk (by omega) le_rfl, rfl, by omega⟩

theorem scannerNew_sound {junk : Nat → Nat → UInt8} {m m' : Memory} {opts : Options R} {scanner : Scanner R}
    (h : scannerNew junk m opts = .ok (m', scanner)) (cs : List Chunk) :
    Sound ⟨m', cs, scanner⟩ ∧ pending ⟨m', cs, scanner⟩ = [] ∧ scanner.trimRecord = opts.trimRecord := by
  unfold scannerNew at h
  cases hnew : newSpan (opts.bufferSizeHint.getD 4096) (opts.bufferSizeHint.getD 4096) with
  | error err =>
      simp only [hnew, bind, Except.bind] at h
      cases h
  | ok c =>
      simp only [hnew, bind, Except.bind] at h
      cases h
      obtain ⟨hin, hsize, hnonneg⟩ := newSpan_within junk m hnew
      exact ⟨⟨hin, ⟨le_rfl, le_rfl⟩, hsize.symm ▸ hnonneg⟩, rfl, rfl⟩

/-- What `get_line` does before its loop. -/
def start (w : Reader R) : Except Error (Reader R × Span) :=
  if w.self.recordSize > 0 then w.shift
  else do
    let wnd ← w.self.buffer.slice 1 (w.self.bufferUsed - w.self.recordSize)
    .ok (w, wnd)

theorem start_spec (h : w.Sound) :
    ∃ m wnd used, w.start = .ok (⟨m, w.stream, { w.self with bufferUsed := used, recordSize := 0 }⟩, wnd) ∧
      w.mem.Grows m ∧
      Filled w.ahead ⟨m, w.stream, { w.self with bufferUsed := used, recordSize := 0 }⟩ wnd := by
  obtain ⟨m, wnd, hshift, hwnd, hgrows, hfilled⟩ := shift_spec h
  by_cases hrecord : w.self.recordSize > 0
  · refine ⟨m, wnd, _, ?_, hgrows, hfilled⟩
    rw [start, if_pos hrecord, hshift]
  · -- a record without bytes is not moved away
    have hno : w.self.recordSize = 0 := by
      have hsize := h.recordSize
      omega
    have hused := h.used
    have hcap := h.within.size_le
    have hsize := h.recordSize
    obtain ⟨wnd', hwnd', hin, hwsize, -, hwindow, -⟩ := slice_spec h.within 1
      (w.self.bufferUsed - w.self.recordSize) le_rfl (by omega) (by omega)
    have hzero : (1 - 1 : Int).toNat = 0 := rfl
    have hread : wnd'.read w.mem = (w.self.buffer.window w.mem).take w.self.bufferUsed.toNat := by
      rw [hin.read_eq, hwindow, hwsize, hzero, List.drop_zero, hno]
      congr 1
      omega
    refine ⟨w.mem, wnd', w.self.bufferUsed, ?_, .refl _, ⟨h.within, rfl, h.used, hin, ?_, hread, ?_⟩⟩
    · have hself : { w.self with recordSize := 0 } = w.self := by
        rw [← hno]
      rw [start, if_neg hrecord, hwnd']
      change Except.ok (w, wnd') = _
      rw [hself]
    · change wnd'.size = w.self.bufferUsed
      omega
    · change wnd'.read w.mem ++ streamBytes w.stream = _
      rw [hread, ahead, pending, hno]
      rfl

theorem getLine_start (junk : Nat → Nat → UInt8) (e : Engine R) {w₁ : Reader R} (h : w.start = .ok (w₁, wnd))
    (hstream : w₁.stream = w.stream) :
    getLine junk e w = w₁.loop junk e ((streamBytes w.stream).length + 1) wnd := by
  unfold start shift at h
  unfold getLine
  by_cases hrecord : w.self.recordSize > 0
  · rw [if_pos hrecord] at h
    cases hwnd : w.self.buffer.slice 1 (w.self.bufferUsed - w.self.recordSize) with
    | error err =>
        rw [hwnd] at h
        cases h
    | ok wnd' =>
        cases hsrc : w.self.buffer.slice (1 + w.self.recordSize) w.self.buffer.size with
        | error err =>
            rw [hwnd, hsrc] at h
            cases h
        | ok src =>
            rw [hwnd, hsrc] at h
            cases h
            simp only [raise, if_pos hrecord]
  · rw [if_neg hrecord] at h
    cases hwnd : w.self.buffer.slice 1 (w.self.bufferUsed - w.self.recordSize) with
    | error err =>
        rw [hwnd] at h
        cases h
    | ok wnd' =>
        rw [hwnd] at h
        cases h
        simp only [raise, if_neg hrecord]

/-- Room is made in a buffer that is full, as far as `max_record_size` allows it. -/
theorem Filled.grow_spec (junk : Nat → Nat → UInt8) (h : w.Filled rest wnd) :
    (w.grow junk = .error .msgSize ∧ w.self.buffer.size = w.self.bufferUsed ∧
        min (w.self.buffer.size * 2) w.self.maxRecordSize ≤ w.self.buffer.size) ∨
      ∃ m buffer, w.grow junk = .ok ⟨m, w.stream, { w.self with buffer := buffer }⟩ ∧ w.mem.Grows m ∧
        Filled rest ⟨m, w.stream, { w.self with buffer := buffer }⟩ wnd ∧ wnd.read m = wnd.read w.mem ∧
        w.self.bufferUsed < buffer.size := by
  unfold grow
  by_cases hfull : w.self.buffer.size = w.self.bufferUsed
  · rw [if_pos hfull]
    generalize hnew : min (w.self.buffer.size * 2) w.self.maxRecordSize = size
    by_cases hlimit : w.self.buffer.size ≥ size
    · exact .inl ⟨if_pos hlimit, hfull, hlimit⟩
    · right
      have hused := h.used_nonneg
      have hsize : w.self.buffer.size < size := by omega
      simp only [if_neg hlimit, newSpan]
      rw [if_neg (by omega), if_neg (by omega)]
      obtain ⟨hgrows, hbuffer, htake, hkeep⟩ := copy_fresh junk h.within size (by omega) rfl
      have hwnd := h.wnd_within.grow hgrows
      have hread := read_congr h.wnd_within hwnd (hkeep wnd h.wnd_within)
      refine ⟨_, _, rfl, hgrows, ⟨hbuffer, h.recordSize, ?_, hwnd, h.wnd_size, ?_, ?_⟩, hread, ?_⟩
      · change w.self.bufferUsed ≤ size
        omega
      · rw [hread, h.wnd_read, ← hfull, htake, h.within.read_eq]
      · rw [hread]
        exact h.rest
      · change w.self.bufferUsed < size
        omega
  · have hused := h.used
    exact .inr ⟨w.mem, w.self.buffer, if_neg hfull, .refl _, h, rfl, by omega⟩

theorem Filled.target (h : w.Filled rest wnd) (hroom : w.self.bufferUsed < w.self.buffer.size) :
    ∃ target, w.self.buffer.slice (1 + w.self.bufferUsed) w.self.buffer.size = .ok target := by
  have hused := h.used_nonneg
  obtain ⟨target, htarget, -⟩ := slice_spec h.within (1 + w.self.bufferUsed)
    w.self.buffer.size (by omega) (by omega) h.within.size_le
  exact ⟨target, htarget⟩

/-- A chunk is read behind what is in the buffer. -/
theorem Filled.read_spec (h : w.Filled rest wnd) (hroom : w.self.bufferUsed < w.self.buffer.size) {b : UInt8}
    {xs : List UInt8} {cs : List Chunk} (hstream : w.stream = .data b xs :: cs) {target : Span}
    (htarget : w.self.buffer.slice (1 + w.self.bufferUsed) w.self.buffer.size = .ok target) :
    ∃ m, ∃ n : Nat, readSome w.mem target w.stream = (m, unread ((b :: xs).drop n) cs, .ok n) ∧ 0 < n ∧
      (streamBytes (unread ((b :: xs).drop n) cs)).length + n = (streamBytes w.stream).length ∧ w.mem.Grows m ∧
      ∃ wnd', w.self.buffer.slice 1 (w.self.bufferUsed + n) = .ok wnd' ∧
        Filled rest ⟨m, unread ((b :: xs).drop n) cs, { w.self with bufferUsed := w.self.bufferUsed + n }⟩ wnd' := by
  have hused := h.used_nonneg
  have hcap := h.within.size_le
  obtain ⟨target', hslice, hin, hsize, hcap', -, hdata⟩ := slice_spec h.within
    (1 + w.self.bufferUsed) w.self.buffer.size (by omega) (by omega) hcap
  obtain rfl : target = target' := Except.ok.inj (htarget.symm.trans hslice)
  have hdata := hdata (by omega)
  generalize hn : min (xs.length + 1) target.size.toNat = n
  have hle : n ≤ xs.length + 1 ∧ (n : Int) ≤ w.self.buffer.size - w.self.bufferUsed ∧ 0 < n := by omega
  generalize hsrc : (b :: xs).take n = src
  have hlen : src.length = n := by
    rw [← hsrc, List.length_take, List.length_cons]
    omega
  have hoff : (1 + w.self.bufferUsed - 1).toNat = w.self.bufferUsed.toNat := by omega
  rw [hoff] at hdata
  have hread : readSome w.mem target w.stream =
      (w.mem.write target.data src, unread ((b :: xs).drop n) cs, .ok n) := by
    rw [hstream]
    simp only [readSome, hn, hsrc]
  have hgrows : w.mem.Grows (w.mem.write target.data src) := by
    refine grows_write fun p hp => ?_
    obtain ⟨-, hroom⟩ := hin.inside p hp
    omega
  have hwithin := h.within.grow hgrows
  have hwindow : w.self.buffer.window (w.mem.write target.data src) =
      splice (w.self.buffer.window w.mem) w.self.bufferUsed.toNat src := by
    rw [hdata]
    exact window_write h.within _ _ (by omega)
  obtain ⟨wnd', hslice', hin', hsize', -, hwindow', -⟩ := slice_spec hwithin 1
    (w.self.bufferUsed + n) le_rfl (by omega) (by omega)
  have htake : (w.self.buffer.window (w.mem.write target.data src)).take (w.self.bufferUsed + n).toNat =
      wnd.read w.mem ++ src := by
    have hlength := h.within.window_length
    rw [hwindow, h.wnd_read, ← take_splice _ _ (by omega), hlen]
    congr 1
    omega
  have hread' : wnd'.read (w.mem.write target.data src) = wnd.read w.mem ++ src := by
    rw [hin'.read_eq, hwindow', hsize', ← htake]
    rw [show (1 - 1 : Int).toNat = 0 from rfl, List.drop_zero]
    congr 1
    omega
  have hbytes : streamBytes (unread ((b :: xs).drop n) cs) = (b :: xs).drop n ++ streamBytes cs := by
    cases (b :: xs).drop n <;> rfl
  refine ⟨_, n, hread, hle.2.2, ?_, hgrows, wnd', hslice', ⟨hwithin, h.recordSize, ?_, hin', ?_, ?_, ?_⟩⟩
  · rw [hbytes, hstream, streamBytes, List.length_append, List.length_append, List.length_drop, List.length_cons]
    omega
  · change w.self.bufferUsed + n ≤ w.self.buffer.size
    omega
  · rw [hsize']
    change w.self.bufferUsed + n - 1 + 1 = w.self.bufferUsed + n
    omega
  · rw [hread', ← htake]
  · rw [hread', hbytes, ← h.rest, hstream, streamBytes, List.append_assoc, ← hsrc, ← List.append_assoc (List.take n _),
      List.take_append_drop]

end Reader

/-! The ways out of the loop. -/

theorem find_prefix {s pat : List UInt8} {i : Nat} (h : find s pat 0 = some i) : i ≤ s.length ∧ pat <+: s.drop i := by
  obtain ⟨hi, hlt, -⟩ := List.find?_range_eq_some.mp h
  simp only [Nat.zero_le, decide_true, Bool.true_and] at hi
  exact ⟨Nat.le_of_lt_succ (List.mem_range.mp hlt), List.isPrefixOf_iff_prefix.mp hi⟩

/-- What a window has from its beginning to a position. -/
theorem slice_read {m : Memory} {bs line : Span} (h : bs.Within m) {first second : Nat} (hle : first ≤ second)
    (hsize : (second : Int) ≤ bs.size) (hslice : bs.slice (first + 1) second = .ok line) :
    line.Within m ∧ line.size = (second : Int) - first ∧
      line.read m = ((bs.read m).take second).drop first := by
  have hcap := h.size_le
  obtain ⟨part, hpart, hin, hpsize, -, hwindow, -⟩ := slice_spec h (first + 1) second (by omega) (by omega) (by omega)
  obtain rfl : part = line := Except.ok.inj (hpart.symm.trans hslice)
  have hoff : ((first : Int) + 1 - 1).toNat = first := by omega
  refine ⟨hin, by omega, ?_⟩
  rw [hin.read_eq, hwindow, hpsize, h.read_eq, hoff, List.take_take, List.drop_take]
  congr 1
  omega

variable {R : Type}

theorem findRecord_spec {e : Engine R} {m : Memory} {self : Scanner R} {wnd line : Span} {terminator : View} {size : Int}
    (h : wnd.Within m) (hfind : self.findRecord e m wnd = .ok (some (line, terminator, size))) :
    line.Within m ∧ 0 ≤ size ∧ size ≤ wnd.size ∧ (terminator.read m).length = terminator.size ∧
      line.read m ++ terminator.read m = (wnd.read m).take size.toNat := by
  have hlen := h.read_length
  have hnonneg := h.size_nonneg
  unfold Scanner.findRecord at hfind
  cases hsep : self.recordSeparator with
  | string sep =>
      simp only [hsep, Span.searchFrom] at hfind
      rw [if_neg (by omega)] at hfind
      by_cases hempty : (1 : Int) > wnd.size
      · rw [if_pos hempty] at hfind
        cases hfind
      · rw [if_neg hempty] at hfind
        cases hi : find (wnd.read m) sep 0 with
        | none =>
            simp only [View.read, Int.sub_self, Int.toNat_zero, hi, Option.map_none, bind, Except.bind] at hfind
            cases hfind
        | some i =>
            obtain ⟨hle, hocc⟩ := find_prefix hi
            have hfit := hocc.length_le
            rw [List.length_drop] at hfit
            simp only [View.read, Int.sub_self, Int.toNat_zero, hi, Option.map_some, bind, Except.bind,
              Int.add_sub_cancel] at hfind
            cases hslice : wnd.slice 1 i with
            | error err =>
                rw [hslice] at hfind
                cases hfind
            | ok part =>
                rw [hslice] at hfind
                cases hfind
                obtain ⟨hin, -, hread⟩ := @slice_read m wnd line h 0 i (Nat.zero_le i) (by omega) hslice
                refine ⟨hin, by omega, by omega, rfl, ?_⟩
                obtain ⟨rest, hrest⟩ := hocc
                have hoff : ((i : Int) + sep.length).toNat = i + sep.length := by omega
                rw [hread, hoff, List.drop_zero, View.read, List.take_add, ← hrest, List.take_left]
  | regex r =>
      simp only [hsep] at hfind
      cases hx : e.search r (wnd.read m) 0 ⟨false, true, false⟩ with
      | none =>
          rw [hx] at hfind
          cases hfind
      | some x =>
          have hle := x.first_le
          have hend := x.second_le
          rw [hx] at hfind
          cases hslice : wnd.slice 1 x.first with
          | error err =>
              simp only [hslice, bind, Except.bind] at hfind
              cases hfind
          | ok part =>
              cases hterm : wnd.slice (x.first + 1) x.second with
              | error err =>
                  simp only [hslice, hterm, bind, Except.bind] at hfind
                  cases hfind
              | ok term =>
                  simp only [hslice, hterm, bind, Except.bind] at hfind
                  cases hfind
                  obtain ⟨hin, -, hread⟩ := @slice_read m wnd line h 0 x.first (Nat.zero_le _) (by omega) hslice
                  obtain ⟨hin', -, hread'⟩ := slice_read h hle (by omega) hterm
                  refine ⟨hin, by omega, by omega, hin'.read_length, ?_⟩
                  rw [hread, View.read, hread', List.drop_zero, Int.toNat_natCast, List.drop_take]
                  rw [← List.take_add]
                  congr 1
                  omega

/-- The search for a record does not fail. -/
theorem findRecord_ok (e : Engine R) {m : Memory} (self : Scanner R) {wnd : Span} (h : wnd.Within m) :
    ∃ x, self.findRecord e m wnd = .ok x := by
  have hlen := h.read_length
  have hnonneg := h.size_nonneg
  have hcap := h.size_le
  unfold Scanner.findRecord
  cases hsep : self.recordSeparator with
  | string sep =>
      simp only [Span.searchFrom]
      rw [if_neg (by omega)]
      by_cases hempty : (1 : Int) > wnd.size
      · rw [if_pos hempty]
        exact ⟨_, rfl⟩
      · rw [if_neg hempty]
        cases hi : find (wnd.read m) sep 0 with
        | none =>
            simp only [View.read, Int.sub_self, Int.toNat_zero, hi, Option.map_none, bind, Except.bind]
            exact ⟨_, rfl⟩
        | some i =>
            obtain ⟨hle, -⟩ := find_prefix hi
            obtain ⟨line, hslice, -⟩ := slice_spec h 1 i le_rfl (by omega) (by omega)
            simp only [View.read, Int.sub_self, Int.toNat_zero, hi, Option.map_some, bind, Except.bind,
              Int.add_sub_cancel, hslice]
            exact ⟨_, rfl⟩
  | regex r =>
      cases hx : e.search r (wnd.read m) 0 ⟨false, true, false⟩ with
      | none =>
          simp only [hx]
          exact ⟨_, rfl⟩
      | some x =>
          have hle := x.first_le
          have hend := x.second_le
          obtain ⟨line, hslice, -⟩ := slice_spec h 1 x.first le_rfl (by omega) (by omega)
          obtain ⟨term, hterm, -⟩ := slice_spec h (x.first + 1) x.second (by omega) (by omega) (by omega)
          simp only [hx, hslice, hterm, bind, Except.bind]
          exact ⟨_, rfl⟩

/-- How a call ends; the bytes of a record are those in front of its terminator,
or all that were left. -/
inductive Ending where
  | terminated (r t : List UInt8)
  | ended (r : List UInt8)
  | failed (err : ScanError)

section
variable (junk : Nat → Nat → UInt8) (e : Engine R)

/-- The rounds of the loop that read and go on. -/
inductive Looks : Reader R → Span → Reader R → Span → Prop
  | refl (w : Reader R) (wnd : Span) : Looks w wnd w wnd
  | read {w w₁ w₂ : Reader R} {wnd wnd₁ wnd₂ target : Span} {m : Memory} {stream : List Chunk} {n : Nat}
      (hnone : w.self.findRecord e w.mem wnd = .ok none) (hgrow : w.grow junk = .ok w₁)
      (htarget : w₁.self.buffer.slice (1 + w₁.self.bufferUsed) w₁.self.buffer.size = .ok target)
      (hread : readSome w₁.mem target w₁.stream = (m, stream, .ok n))
      (hwnd : w₁.self.buffer.slice 1 (w₁.self.bufferUsed + n) = .ok wnd₁)
      (hrest : Looks ⟨m, stream, { w₁.self with bufferUsed := w₁.self.bufferUsed + n }⟩ wnd₁ w₂ wnd₂) :
      Looks w wnd w₂ wnd₂

/-- The last round. -/
inductive Leaves (w : Reader R) (wnd : Span) : Ending → Reader R × Except ScanError Record → Prop
  | terminated {line : Span} {terminator : View} {size : Int}
      (hfind : w.self.findRecord e w.mem wnd = .ok (some (line, terminator, size))) :
      Leaves w wnd (.terminated (line.read w.mem) (terminator.read w.mem)) (w.found e line terminator size)
  | full (hnone : w.self.findRecord e w.mem wnd = .ok none) (hgrow : w.grow junk = .error .msgSize) :
      Leaves w wnd (.failed .msgSize) (w, .error .msgSize)
  | failed {w₁ : Reader R} {target : Span} {m : Memory} {stream : List Chunk} {err : ReadError}
      (hnone : w.self.findRecord e w.mem wnd = .ok none) (hgrow : w.grow junk = .ok w₁)
      (htarget : w₁.self.buffer.slice (1 + w₁.self.bufferUsed) w₁.self.buffer.size = .ok target)
      (hread : readSome w₁.mem target w₁.stream = (m, stream, .error err)) (herr : err ≠ .eof ∨ wnd.size = 0) :
      Leaves w wnd (.failed err.raised) (⟨m, stream, w₁.self⟩, .error err.raised)
  | ended {w₁ : Reader R} {target : Span} {m : Memory} {stream : List Chunk}
      (hnone : w.self.findRecord e w.mem wnd = .ok none) (hgrow : w.grow junk = .ok w₁)
      (htarget : w₁.self.buffer.slice (1 + w₁.self.bufferUsed) w₁.self.buffer.size = .ok target)
      (hread : readSome w₁.mem target w₁.stream = (m, stream, .error .eof)) (hsize : wnd.size ≠ 0) :
      Leaves w wnd (.ended (wnd.read m)) ((⟨m, stream, w₁.self⟩ : Reader R).last e wnd)

/-- A call of `get_line`, with the way it goes. -/
inductive Call (w : Reader R) (ending : Ending) (result : Reader R × Except ScanError Record) : Prop
  | intro {w₀ w₁ : Reader R} {wnd₀ wnd₁ : Span} (hstart : w.start = .ok (w₀, wnd₀)) (hlooks : Looks junk e w₀ wnd₀ w₁ wnd₁)
      (hleaves : Leaves junk e w₁ wnd₁ ending result)

end

section
variable {junk : Nat → Nat → UInt8} {e : Engine R} {w w' : Reader R} {wnd wnd' : Span} {rest : List UInt8}

/-- The attributes that the program sets. -/
structure Scanner.SameOptions (s s' : Scanner R) : Prop where
  recordSeparator : s'.recordSeparator = s.recordSeparator
  trimRecord : s'.trimRecord = s.trimRecord
  fieldSeparator : s'.fieldSeparator = s.fieldSeparator
  fieldPattern : s'.fieldPattern = s.fieldPattern
  maxRecordSize : s'.maxRecordSize = s.maxRecordSize

theorem Scanner.SameOptions.trans {self self' self'' : Scanner R} (h : self.SameOptions self')
    (h' : self'.SameOptions self'') : self.SameOptions self'' :=
  ⟨h'.recordSeparator.trans h.recordSeparator, h'.trimRecord.trans h.trimRecord,
    h'.fieldSeparator.trans h.fieldSeparator, h'.fieldPattern.trans h.fieldPattern,
    h'.maxRecordSize.trans h.maxRecordSize⟩

/-- The buffer and the record are no options. -/
theorem Scanner.SameOptions.update (self : Scanner R) (buffer : Span) (used size number : Int) (terminator : Option View) :
    self.SameOptions { self with
      buffer := buffer, bufferUsed := used, recordSize := size, recordNumber := number, recordTerminator := terminator } :=
  ⟨rfl, rfl, rfl, rfl, rfl⟩

/-- The read that follows a search without a record. -/
theorem Reader.Filled.round (h : w.Filled rest wnd) (hnone : w.self.findRecord e w.mem wnd = .ok none) (fuel : Nat) :
    (∃ ending result, Leaves junk e w wnd ending result ∧ w.loop junk e (fuel + 1) wnd = result) ∨
      ∃ w₁ wnd₁, w₁.Filled rest wnd₁ ∧ (∀ w₂ wnd₂, Looks junk e w₁ wnd₁ w₂ wnd₂ → Looks junk e w wnd w₂ wnd₂) ∧
        (streamBytes w₁.stream).length < (streamBytes w.stream).length ∧
        w.loop junk e (fuel + 1) wnd = w₁.loop junk e fuel wnd₁ := by
  rcases h.grow_spec junk with ⟨hgrow, -⟩ | ⟨m, buffer, hgrow, -, hfilled, -, hroom⟩
  · refine .inl ⟨_, _, .full hnone hgrow, ?_⟩
    rw [Reader.loop, hnone]
    simp only [Reader.raise, hgrow]
  · obtain ⟨target, htarget⟩ := hfilled.target hroom
    cases hs : w.stream with
    | nil =>
        have hread : readSome m target w.stream = (m, [], .error .eof) := by
          rw [hs]
          rfl
        by_cases hsize : wnd.size = 0
        · refine .inl ⟨_, _, .failed hnone hgrow htarget hread (.inr hsize), ?_⟩
          rw [Reader.loop, hnone]
          simp only [Reader.raise, hgrow, htarget, hread, hsize, or_true, if_true]
        · refine .inl ⟨_, _, .ended hnone hgrow htarget hread hsize, ?_⟩
          rw [Reader.loop, hnone]
          simp only [Reader.raise, hgrow, htarget, hread, ne_eq, not_true_eq_false, hsize, or_self, if_false]
    | cons c cs =>
        cases c with
        | fail code =>
            have hread : readSome m target w.stream = (m, cs, .error (.other code)) := by
              rw [hs]
              rfl
            refine .inl ⟨_, _, .failed hnone hgrow htarget hread (.inl (by simp)), ?_⟩
            rw [Reader.loop, hnone]
            simp only [Reader.raise, hgrow, htarget, hread, ne_eq, reduceCtorEq, not_false_eq_true, true_or, if_true]
        | data b xs =>
            obtain ⟨m', n, hread, hn, hlength, -, wnd₁, hwnd, hfilled'⟩ := hfilled.read_spec hroom hs htarget
            refine .inr ⟨_, wnd₁, hfilled', fun w₂ wnd₂ hlooks => .read hnone hgrow htarget hread hwnd hlooks, ?_, ?_⟩
            · change (streamBytes (unread ((b :: xs).drop n) cs)).length < _
              rw [← hs]
              change _ + n = (streamBytes w.stream).length at hlength
              omega
            · rw [Reader.loop, hnone]
              simp only [Reader.raise, hgrow, htarget, hread, hwnd]

/-- The loop comes to an end. -/
theorem loop_leaves (h : w.Filled rest wnd) {fuel : Nat} (hfuel : (streamBytes w.stream).length < fuel) :
    ∃ w₁ wnd₁ ending, w₁.Filled rest wnd₁ ∧ Looks junk e w wnd w₁ wnd₁ ∧
      Leaves junk e w₁ wnd₁ ending (w.loop junk e fuel wnd) := by
  induction fuel generalizing w wnd with
  | zero => exact absurd hfuel (Nat.not_lt_zero _)
  | succ fuel ih =>
      obtain ⟨x, hx⟩ := findRecord_ok e w.self h.wnd_within
      cases x with
      | some x =>
          obtain ⟨line, terminator, size⟩ := x
          refine ⟨w, wnd, .terminated (line.read w.mem) (terminator.read w.mem), h, .refl w wnd, ?_⟩
          rw [Reader.loop, hx]
          exact .terminated hx
      | none =>
          rcases h.round hx fuel with ⟨ending, result, hleaves, hloop⟩ | ⟨w₁, wnd₁, h₁, hlooks, hless, hloop⟩
          · exact ⟨w, wnd, ending, h, .refl w wnd, hloop ▸ hleaves⟩
          · obtain ⟨w₂, wnd₂, ending, h₂, hlooks₂, hleaves⟩ := ih h₁ (by omega)
            exact ⟨w₂, wnd₂, ending, h₂, hlooks w₂ wnd₂ hlooks₂, hloop ▸ hleaves⟩

/-- The rounds change the buffer and what it has. -/
theorem Looks.spec (h : w.Filled rest wnd) (hlooks : Looks junk e w wnd w' wnd') :
    w'.Filled rest wnd' ∧ w.mem.Grows w'.mem ∧ w.self.SameOptions w'.self ∧
      w'.self.recordNumber = w.self.recordNumber := by
  induction hlooks with
  | refl w wnd => exact ⟨h, .refl _, .update w.self .., rfl⟩
  | @read w w₁ w₂ wnd wnd₁ wnd₂ target m stream n hnone hgrow htarget hread hwnd hrest ih =>
      rcases h.grow_spec junk with ⟨hfull, -⟩ | ⟨m₁, buffer, hgrow', hgrows, hfilled, -, hroom⟩
      · rw [hfull] at hgrow
        cases hgrow
      · obtain rfl := Except.ok.inj (hgrow'.symm.trans hgrow)
        cases hs : w.stream with
        | nil =>
            simp only [hs, readSome] at hread
            cases hread
        | cons c cs =>
            cases c with
            | fail code =>
                simp only [hs, readSome] at hread
                cases hread
            | data b xs =>
                obtain ⟨m₂, n₂, hread', -, -, hgrows₂, wnd₃, hwnd', hfilled₂⟩ := hfilled.read_spec hroom hs htarget
                rw [hread] at hread'
                cases hread'
                obtain rfl := Except.ok.inj (hwnd.symm.trans hwnd')
                obtain ⟨h₂, hgrows', hsame, hnumber⟩ := ih hfilled₂
                exact ⟨h₂, (hgrows.trans hgrows₂).trans hgrows', .trans (.update w.self ..) hsame, hnumber⟩

/-- Where a call leaves the loop. -/
theorem Call.arrives {ending : Ending} {result : Reader R × Except ScanError Record} (h : w.Sound)
    (hcall : Call junk e w ending result) :
    ∃ w₁ wnd₁, w₁.Filled w.ahead wnd₁ ∧ w.mem.Grows w₁.mem ∧ w.self.SameOptions w₁.self ∧
      w₁.self.recordNumber = w.self.recordNumber ∧ Leaves junk e w₁ wnd₁ ending result := by
  obtain ⟨hstart, hlooks, hleaves⟩ := hcall
  obtain ⟨m, wnd, used, hstart', hgrows, hfilled⟩ := Reader.start_spec h
  obtain ⟨rfl, rfl⟩ := Prod.mk.inj (Except.ok.inj (hstart'.symm.trans hstart))
  obtain ⟨h₁, hgrows', hsame, hnumber⟩ := hlooks.spec hfilled
  exact ⟨_, _, h₁, hgrows.trans hgrows', .trans (.update w.self ..) hsame, hnumber, hleaves⟩

theorem readSome_error {m m' : Memory} {target : Span} {cs cs' : List Chunk} {err : ReadError}
    (h : readSome m target cs = (m', cs', .error err)) :
    m' = m ∧ streamBytes cs' = streamBytes cs ∧ (err = .eof → cs = [] ∧ cs' = []) := by
  cases cs with
  | nil =>
      cases h
      exact ⟨rfl, rfl, fun _ => ⟨rfl, rfl⟩⟩
  | cons c cs =>
      cases c with
      | data b xs => cases h
      | fail code =>
          cases h
          exact ⟨rfl, rfl, nofun⟩

variable {x : Reader R × Except ScanError Record} {r : List UInt8} {err : ScanError}

/-- A call that fails has not dropped anything. -/
theorem Leaves.failed_spec (h : w.Filled rest wnd) (hleaves : Leaves junk e w wnd (.failed err) x) :
    ∃ w₁ : Reader R, w₁.Filled rest wnd ∧ w.mem.Grows w₁.mem ∧ w.self.SameOptions w₁.self ∧
      w₁.self.recordNumber = w.self.recordNumber ∧ x = (w₁, .error err) := by
  cases hleaves with
  | full => exact ⟨w, h, .refl _, .update w.self .., rfl, rfl⟩
  | @failed w₁ target m stream err hnone hgrow htarget hread herr =>
      rcases h.grow_spec junk with ⟨hfull, -⟩ | ⟨m₁, buffer, hgrow', hgrows, h₁, -, -⟩
      · rw [hfull] at hgrow
        cases hgrow
      · obtain rfl := Except.ok.inj (hgrow'.symm.trans hgrow)
        obtain ⟨rfl, hbytes, -⟩ := readSome_error hread
        refine ⟨⟨m, stream, { w.self with buffer := buffer }⟩, ⟨h₁.within, h₁.recordSize, h₁.used, h₁.wnd_within,
          h₁.wnd_size, h₁.wnd_read, ?_⟩, hgrows, .update w.self .., rfl, rfl⟩
        rw [← h₁.rest]
        exact congrArg (wnd.read _ ++ ·) hbytes

/-- The last record is all that was left. -/
theorem Leaves.ended_spec (h : w.Filled rest wnd) (hleaves : Leaves junk e w wnd (.ended r) x) :
    r = rest ∧ rest ≠ [] ∧ ∃ w₁ : Reader R, w₁.Filled rest wnd ∧ w.mem.Grows w₁.mem ∧ w.self.SameOptions w₁.self ∧
      w₁.self.recordNumber = w.self.recordNumber ∧ w.self.findRecord e w.mem wnd = .ok none ∧ w.stream = [] ∧
      w₁.stream = [] ∧ wnd.read w₁.mem = rest ∧ x = w₁.last e wnd := by
  cases hleaves with
  | @ended w₁ target m stream hnone hgrow htarget hread hsize =>
      rcases h.grow_spec junk with ⟨hfull, -⟩ | ⟨m₁, buffer, hgrow', hgrows, h₁, -, -⟩
      · rw [hfull] at hgrow
        cases hgrow
      · obtain rfl := Except.ok.inj (hgrow'.symm.trans hgrow)
        obtain ⟨rfl, hbytes, hend⟩ := readSome_error hread
        obtain ⟨hstream, rfl⟩ := hend rfl
        have hall : wnd.read m = rest := by
          rw [← h₁.rest]
          change _ = wnd.read m ++ streamBytes w.stream
          rw [← hbytes, streamBytes, List.append_nil]
        have hlen := h₁.wnd_within.read_length
        have hnonneg := h₁.wnd_within.size_nonneg
        refine ⟨hall, ?_, ⟨m, [], { w.self with buffer := buffer }⟩, ⟨h₁.within, h₁.recordSize, h₁.used, h₁.wnd_within,
          h₁.wnd_size, h₁.wnd_read, ?_⟩, hgrows, .update w.self .., rfl, hnone, hstream, rfl, hall, rfl⟩
        · rintro rfl
          rw [hall, List.length_nil] at hlen
          omega
        · change wnd.read m ++ [] = rest
          rw [List.append_nil, hall]

theorem getLine_call (junk : Nat → Nat → UInt8) (e : Engine R) (h : w.Sound) :
    ∃ ending, Call junk e w ending (getLine junk e w) := by
  obtain ⟨m, wnd, used, hstart, -, hfilled⟩ := Reader.start_spec h
  obtain ⟨w₁, wnd₁, ending, -, hlooks, hleaves⟩ := @loop_leaves _ junk e _ _ _ hfilled _ (Nat.lt_succ_self _)
  rw [← Reader.getLine_start junk e hstart rfl] at hleaves
  exact ⟨ending, hstart, hlooks, hleaves⟩

end

end Emilua.Bytes
