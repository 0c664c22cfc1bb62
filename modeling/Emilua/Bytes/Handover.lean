import Emilua.Bytes.Fields

/-!
The methods of a scanner beside `get_line`: `remove_line`, `buffer` and
`set_buffer`. Between them and `get_line`, what has not been returned is handed
on; only a last record that is trimmed leaves behind bytes that are part of it.
-/
namespace Emilua.Bytes
open Split Transition

section
variable {R : Type}

/-- `remove_line`. -/
def removeLine (w : Reader R) : Reader R × Except ScanError Unit :=
  w.raise w.shift fun (w, _) => ({ w with self := { w.self with recordTerminator := none } }, .ok ())

/-- `buffer`: the window, and the position of its first byte. -/
def scannerBuffer (self : Scanner R) : Except Error (Span × Int) :=
  (self.buffer.slice 1 self.bufferUsed).map (·, 1)

/-- `set_buffer`. -/
def setBuffer (w : Reader R) (buffer : Span) (offset : Option Int) : Reader R × Except ScanError Unit :=
  w.raise (buffer.slice 1 buffer.capacity) fun whole =>
    let w := { w with self := { w.self with buffer := whole } }
    w.raise (buffer.slice (offset.getD 1) buffer.size) fun src =>
      let (m, used) := buffer.copy w.mem (.window src)
      ({ w with mem := m, self := { w.self with bufferUsed := used, recordSize := 0, recordTerminator := none } }, .ok ())

variable {w : Reader R}

theorem removeLine_spec (h : w.Sound) :
    ∃ w', removeLine w = (w', .ok ()) ∧ w'.Sound ∧ w.mem.Grows w'.mem ∧ w.self.SameOptions w'.self ∧
      w'.stream = w.stream ∧ w'.pending = w.pending ∧ w'.self.recordSize = 0 := by
  obtain ⟨m, wnd, hshift, -, hgrows, hfilled⟩ := Reader.shift_spec h
  have hahead := hfilled.ahead_eq
  refine ⟨{ mem := m, stream := w.stream, self := { w.self with
    bufferUsed := w.self.bufferUsed - w.self.recordSize, recordSize := 0, recordTerminator := none } }, ?_,
    ⟨hfilled.within, hfilled.sound.recordSize, hfilled.used⟩, hgrows, .update w.self .., rfl, ?_, rfl⟩
  · rw [removeLine, hshift]
    rfl
  · exact List.append_cancel_right hahead

/-- Without a current record, the window has what is pending. -/
theorem scannerBuffer_spec (h : w.Sound) (hrecord : w.self.recordSize = 0) :
    ∃ bs, scannerBuffer w.self = .ok (bs, 1) ∧ bs.Within w.mem ∧ bs.read w.mem = w.pending := by
  have hused := h.used
  have hsize := h.recordSize
  have hcap := h.within.size_le
  have hzero : (1 - 1 : Int).toNat = 0 := rfl
  obtain ⟨bs, hslice, hin, hbsize, -, hwindow, -⟩ := slice_spec h.within 1 w.self.bufferUsed le_rfl (by omega) (by omega)
  refine ⟨bs, ?_, hin, ?_⟩
  · rw [scannerBuffer, hslice]
    rfl
  · rw [hin.read_eq, hwindow, hbsize, hzero, List.drop_zero, Reader.pending, hrecord]
    congr 1
    omega

theorem setBuffer_spec (w : Reader R) {bs : Span} (h : bs.Within w.mem) {offset : Option Int} (hlow : 1 ≤ offset.getD 1)
    (hhigh : offset.getD 1 ≤ bs.size + 1) :
    ∃ w', setBuffer w bs offset = (w', .ok ()) ∧ w'.Sound ∧ w.mem.Grows w'.mem ∧ w.self.SameOptions w'.self ∧
      w'.stream = w.stream ∧ w'.pending = (bs.read w.mem).drop (offset.getD 1 - 1).toNat := by
  have hnonneg := h.size_nonneg
  have hcap := h.size_le
  have hzero : (1 - 1 : Int).toNat = 0 := rfl
  generalize hstart : offset.getD 1 = start at hlow hhigh
  obtain ⟨whole, hwhole, hin, hwsize, hwcap, -, hdata⟩ := slice_spec h 1 bs.capacity le_rfl (by omega) le_rfl
  obtain ⟨src, hsrc, hsrcin, hsrcsize, -, hsrcwindow, -⟩ := slice_spec h start bs.size (by omega) (by omega) hcap
  have hmove : src.read w.mem = (bs.read w.mem).drop (start - 1).toNat := by
    rw [hsrcin.read_eq, hsrcwindow, h.read_eq, hsrcsize, List.drop_take]
    congr 1
    omega
  have hlen := hsrcin.read_length
  obtain ⟨hgrows, hcopied⟩ := copy_spec h hsrcin
  rw [List.take_of_length_le (by omega)] at hcopied
  have hcount : (bs.copy w.mem (.window src)).2 = src.size := by
    change ((min src.size.toNat bs.size.toNat : Nat) : Int) = src.size
    omega
  have hwithin := hin.grow hgrows
  generalize hm : bs.copy w.mem (.window src) = copied at hgrows hcopied hwithin hcount
  obtain ⟨m, used⟩ := copied
  subst hcount
  have hused : (0 : Int) ≤ bs.size - start + 1 ∧ bs.size - start + 1 ≤ whole.size := by omega
  refine ⟨⟨m, w.stream, { w.self with
    buffer := whole, bufferUsed := src.size, recordSize := 0, recordTerminator := none }⟩, ?_,
    ⟨hwithin, ⟨le_rfl, ?_⟩, ?_⟩, hgrows, .update w.self .., rfl, ?_⟩
  · simp only [setBuffer, hstart, hwhole, hsrc, Reader.raise, hm]
  · change 0 ≤ src.size
    omega
  · change src.size ≤ whole.size
    omega
  · have htake := take_splice (bs.window w.mem) (src.read w.mem) (Nat.zero_le _)
    rw [Nat.zero_add, List.take_zero, List.nil_append, hlen, ← hcopied] at htake
    change ((whole.window m).take src.size.toNat).drop (0 : Int).toNat = _
    rw [slice_front_window hwhole, htake, hmove]
    rfl

/-! What a call of `get_line` does to what is ahead. -/

/-- The call goes on with the first record of `total`. -/
def Ending.Continues (total : List UInt8) (x : Reader R × Except ScanError Record) : Ending → Prop
  | .terminated r t => total = r ++ t ++ x.1.ahead ∧
      ∀ sep, sep ≠ [] → x.1.self.recordSeparator = .string sep → Cut sep total r t x.1.ahead
  | .ended r => total = r ∧ x.1.stream = [] ∧
      ∀ sep, sep ≠ [] → x.1.self.recordSeparator = .string sep → Cut sep total r [] []
  | .failed err => total = x.1.ahead ∧ x.2 = .error err

variable {junk : Nat → Nat → UInt8} {e : Engine R} {wnd line : Span} {terminator : View} {size : Int} {rest sep : List UInt8}
  {x : Reader R × Except ScanError Record} {ending : Ending}

theorem findRecord_cut {total : List UInt8} (h : w.Filled total wnd) (hsep : sep ≠ []) (hstring : w.self.recordSeparator = .string sep)
    (hfind : w.self.findRecord e w.mem wnd = .ok (some (line, terminator, size))) :
    Cut sep total (line.read w.mem) (terminator.read w.mem) ((wnd.read w.mem).drop size.toNat ++ streamBytes w.stream) := by
  simp only [Scanner.findRecord, hstring, search_sep h.wnd_within hsep, bind, Except.bind] at hfind
  cases hi : firstAt sep (wnd.read w.mem) with
  | none =>
      rw [hi] at hfind
      cases hfind
  | some i =>
      have hlen := h.wnd_within.read_length
      have hnonneg := h.wnd_within.size_nonneg
      have hle := occurs_length hsep (firstAt_some hi).1
      simp only [hi, Option.map_some, Int.add_sub_cancel] at hfind
      cases hslice : wnd.slice 1 i with
      | error err =>
          rw [hslice] at hfind
          cases hfind
      | ok part =>
          rw [hslice] at hfind
          cases hfind
          obtain ⟨-, -, hread⟩ := @slice_read w.mem wnd line h.wnd_within 0 i (Nat.zero_le i) (by omega) hslice
          have hsize : ((i : Int) + sep.length).toNat = i + sep.length := by omega
          rw [hread, hsize, List.drop_zero, ← h.rest]
          exact cut_first hsep hi (streamBytes w.stream)

theorem findRecord_no_cut (h : wnd.Within w.mem) (hsep : sep ≠ []) (hstring : w.self.recordSeparator = .string sep)
    (hnone : w.self.findRecord e w.mem wnd = .ok none) (i : Nat) : ¬ sep <+: (wnd.read w.mem).drop i := by
  simp only [Scanner.findRecord, hstring, search_sep h hsep, bind, Except.bind] at hnone
  cases hi : firstAt sep (wnd.read w.mem) with
  | none => exact firstAt_none hsep hi i
  | some i =>
      simp only [hi, Option.map_some] at hnone
      cases hslice : wnd.slice 1 ((i : Int) + 1 - 1) with
      | error err =>
          rw [hslice] at hnone
          cases hnone
      | ok line =>
          rw [hslice] at hnone
          cases hnone

theorem found_spec (h : w.Filled rest wnd) (hfind : w.self.findRecord e w.mem wnd = .ok (some (line, terminator, size))) :
    (w.found e line terminator size).1.Sound ∧
      (w.found e line terminator size).1.ahead = (wnd.read w.mem).drop size.toNat ++ streamBytes w.stream ∧
      rest = line.read w.mem ++ terminator.read w.mem ++ (w.found e line terminator size).1.ahead := by
  obtain ⟨-, hlow, hhigh, -, hcut⟩ := findRecord_spec h.wnd_within hfind
  have hsize := h.wnd_size
  have hahead : (w.found e line terminator size).1.ahead = (wnd.read w.mem).drop size.toNat ++ streamBytes w.stream := by
    rw [h.wnd_read]
    rfl
  refine ⟨⟨h.within, ⟨hlow, hsize ▸ hhigh⟩, h.used⟩, hahead, ?_⟩
  rw [hahead, hcut, ← List.append_assoc, List.take_append_drop]
  exact h.rest.symm

/-- What is left in the buffer of the last record is as long as what has been
trimmed off it. -/
theorem last_spec (h : w.Filled rest wnd) (hend : w.stream = []) (hread : wnd.read w.mem = rest) :
    (w.last e wnd).1.Sound ∧ ((w.last e wnd).1.trimmed rest = rest → (w.last e wnd).1.ahead = []) := by
  have hsize := h.wnd_size
  have hlen := h.wnd_within.read_length
  have hnonneg := h.wnd_within.size_nonneg
  obtain ⟨htrim, htrimmed⟩ := apply_bytes h.wnd_within w.self.trimRecord
  have htlen := htrim.read_length
  have htnonneg := htrim.size_nonneg
  have hshort : ((w.self.trimRecord.apply w.mem wnd).read w.mem).length ≤ (wnd.read w.mem).length := by
    rw [htrimmed]
    cases w.self.trimRecord.bytes w.mem with
    | none => exact le_rfl
    | some set => exact ( trimBytes_infix set _).length_le
  have hused : (w.self.trimRecord.apply w.mem wnd).size ≤ w.self.bufferUsed := by omega
  refine ⟨⟨h.within, ⟨htnonneg, hused⟩, h.used⟩, fun hsame => ?_⟩
  have hall : (w.self.trimRecord.apply w.mem wnd).read w.mem = rest := by
    rw [htrimmed, hread]
    exact hsame
  have hbytes : (w.last e wnd).1.ahead =
      ((w.self.buffer.window w.mem).take w.self.bufferUsed.toNat).drop (w.self.trimRecord.apply w.mem wnd).size.toNat ++
        streamBytes w.stream := rfl
  rw [hbytes, hend, streamBytes, List.append_nil, ← h.wnd_read]
  refine List.drop_eq_nil_of_le ?_
  rw [hread, ← hall, htlen]

/-- Nothing is left of a last record that trimming leaves alone. -/
theorem ended_ahead {r : List UInt8} (h : w.Sound) (hcall : Call junk e w (.ended r) x) (hsame : x.1.trimmed r = r) :
    x.1.ahead = [] := by
  obtain ⟨w₁, wnd, h₁, -, -, -, hleaves⟩ := hcall.arrives h
  obtain ⟨rfl, -, w₂, h₂, -, -, -, -, -, hend, hread, rfl⟩ := hleaves.ended_spec h₁
  exact (last_spec h₂ hend hread).2 hsame

theorem call_spec (h : w.Sound) (hcall : Call junk e w ending x) :
    x.1.Sound ∧ w.mem.Grows x.1.mem ∧ w.self.SameOptions x.1.self ∧ ending.Continues w.ahead x := by
  obtain ⟨w₁, wnd, h₁, hgrows, hsame, -, hleaves⟩ := hcall.arrives h
  cases ending with
  | terminated r t =>
      cases hleaves with
      | @terminated line terminator size hfind =>
          obtain ⟨hsound, hahead, hcut⟩ := found_spec h₁ hfind
          refine ⟨hsound, hgrows, hsame.trans (.update ..), hcut, fun sep hsep hstring => ?_⟩
          rw [hahead]
          exact findRecord_cut h₁ hsep hstring hfind
  | ended r =>
      obtain ⟨rfl, hne, w₂, h₂, hgrows₂, hsame₂, -, hnone, hend, hend₂, hread, rfl⟩ := hleaves.ended_spec h₁
      refine ⟨(last_spec h₂ hend₂ hread).1, hgrows.trans hgrows₂, (hsame.trans hsame₂).trans (.update ..), rfl, hend₂,
        fun sep hsep hstring => .last hne ?_⟩
      have hall : wnd.read w₁.mem = w.ahead := by
        have hrest := h₁.rest
        rwa [hend, streamBytes, List.append_nil] at hrest
      rw [← hall]
      exact findRecord_no_cut h₁.wnd_within hsep (hsame₂.recordSeparator.symm.trans hstring) hnone
  | failed err =>
      obtain ⟨w₂, h₂, hgrows₂, hsame₂, -, rfl⟩ := hleaves.failed_spec h₁
      exact ⟨h₂.sound, hgrows.trans hgrows₂, hsame.trans hsame₂, h₂.ahead_eq.symm, rfl⟩

end

/-! A scanner that does not trim. -/

def Ending.record : Ending → List (List UInt8 × List UInt8)
  | .terminated r t => [(r, t)]
  | .ended r => [(r, [])]
  | .failed _ => []

section
variable {R : Type} {junk : Nat → Nat → UInt8} {e : Engine R} {w w' : Reader R} {sep : List UInt8}
  {x : Reader R × Except ScanError Record} {ending : Ending}

/-- The record that a call has found, as `buffered_line` gives it, and its
terminator. -/
def Reader.noted (w w' : Reader R) : List (List UInt8 × List UInt8) :=
  if w'.self.recordNumber = w.self.recordNumber then []
  else
    match w'.self.bufferedLine, w'.self.recordTerminator with
    | some (.ok bs), some terminator => [(bs.read w'.mem, terminator.read w'.mem)]
    | _, _ => []

/-- The first bytes of the buffer are given by `buffered_line`. -/
theorem bufferedLine_spec (h : w.self.buffer.Within w.mem) {terminator : View} {n : Nat}
    (hterminator : w.self.recordTerminator = some terminator) (hsize : w.self.recordSize = n + terminator.size)
    (hn : (n : Int) ≤ w.self.buffer.size) :
    ∃ bs, w.self.bufferedLine = some (.ok bs) ∧ bs.read w.mem = (w.self.buffer.window w.mem).take n := by
  have hcap := h.size_le
  obtain ⟨bs, hslice, hin, hbsize, -, hwindow, -⟩ := slice_spec h 1 n le_rfl (by omega) (by omega)
  have hzero : (1 - 1 : Int).toNat = 0 := rfl
  refine ⟨bs, ?_, ?_⟩
  · rw [Scanner.bufferedLine, hterminator, hsize, Option.map_some, Int.add_sub_cancel, hslice]
  · rw [hin.read_eq, hwindow, hbsize, hzero, List.drop_zero]
    congr 1
    omega

theorem noted_eq (h : w.Sound) (htrim : w.self.trimRecord = .off) (hcall : Call junk e w ending x) :
    w.noted x.1 = ending.record := by
  obtain ⟨w₁, wnd, h₁, -, hsame, hnumber, hleaves⟩ := hcall.arrives h
  have hwsize := h₁.wnd_size
  have hused := h₁.used
  cases ending with
  | terminated r t =>
      cases hleaves with
      | @terminated line terminator size hfind =>
          obtain ⟨-, hlow, hhigh, hterm, hcut⟩ := findRecord_spec h₁.wnd_within hfind
          have hlen := congrArg List.length hcut
          have hrlen := h₁.wnd_within.read_length
          rw [List.length_append, List.length_take] at hlen
          obtain ⟨bs, hline, hread⟩ := @bufferedLine_spec R (w₁.found e line terminator size).1 h₁.within terminator
            (line.read w₁.mem).length rfl (show size = _ by omega) (show _ ≤ w₁.self.buffer.size by omega)
          have hsame : bs.read w₁.mem = line.read w₁.mem := by
            have htake := congrArg (List.take (line.read w₁.mem).length) hcut
            rw [List.take_left, h₁.wnd_read, List.take_take, List.take_take] at htake
            rw [htake]
            refine hread.trans (congrArg (List.take · _) ?_)
            omega
          have hno : (w₁.found e line terminator size).1.self.recordNumber ≠ w.self.recordNumber := by
            change w₁.self.recordNumber + 1 ≠ w.self.recordNumber
            omega
          rw [Reader.noted, if_neg hno, hline]
          change [(bs.read w₁.mem, terminator.read w₁.mem)] = _
          rw [hsame]
          rfl
  | ended r =>
      obtain ⟨rfl, -, w₂, h₂, -, hsame₂, hnumber₂, -, -, -, hread, rfl⟩ := hleaves.ended_spec h₁
      have hoff : w₂.self.trimRecord.apply w₂.mem wnd = wnd := by
        rw [hsame₂.trimRecord, hsame.trimRecord, htrim]
        rfl
      obtain ⟨terminator, hterminator, hempty, hnil⟩ : ∃ t : View, (w₂.last e wnd).1.self.recordTerminator = some t ∧
          t.size = 0 ∧ t.read w₂.mem = [] := by
        unfold Reader.last
        cases w₂.self.recordSeparator with
        | string => exact ⟨_, rfl, rfl, rfl⟩
        | regex => exact ⟨_, rfl, rfl, rfl⟩
      have hnonneg := h₂.wnd_within.size_nonneg
      have hwsize₂ := h₂.wnd_size
      have hused₂ := h₂.used
      have hrecord : (w₂.last e wnd).1.self.recordSize = (wnd.size.toNat : Int) + terminator.size := by
        change (w₂.self.trimRecord.apply w₂.mem wnd).size = _
        rw [hoff]
        omega
      obtain ⟨bs, hline, hbytes⟩ := @bufferedLine_spec R (w₂.last e wnd).1 h₂.within terminator wnd.size.toNat hterminator
        hrecord (show _ ≤ w₂.self.buffer.size by omega)
      have hall : bs.read w₂.mem = w.ahead := by
        rw [← hread, h₂.wnd_read, ← hwsize₂]
        exact hbytes
      have hno : (w₂.last e wnd).1.self.recordNumber ≠ w.self.recordNumber := by
        change w₂.self.recordNumber + 1 ≠ w.self.recordNumber
        omega
      rw [Reader.noted, if_neg hno, hline, hterminator]
      change [(bs.read w₂.mem, terminator.read w₂.mem)] = _
      rw [hall, hnil]
      rfl
  | failed err =>
      obtain ⟨w₂, -, -, -, hnumber₂, rfl⟩ := hleaves.failed_spec h₁
      exact if_pos (hnumber₂.trans hnumber)

/-- The error is that of a read, or of a record that is too long. -/
def ScanError.OfRead (err : ScanError) : Prop := err = .msgSize ∨ err = .eof ∨ ∃ code, err = .read code

theorem spanFields_error {y : Except Error (List Value)} {err : ScanError} (h : spanFields y = .error err) : ¬ err.OfRead := by
  cases y with
  | ok vs => cases h
  | error err' =>
      cases h
      simp [ScanError.OfRead]

theorem fieldLoop_error {m : Memory} {fuel : Nat} {line : Span} {err : ScanError} (h : fieldLoop m sep fuel line = .error err) :
    ¬ err.OfRead := by
  induction fuel generalizing line with
  | zero =>
      cases h
      simp [ScanError.OfRead]
  | succ fuel ih =>
      rw [fieldLoop] at h
      cases hfind : line.searchFrom find m (.literal sep) 1 with
      | error err' =>
          rw [hfind] at h
          cases h
          simp [ScanError.OfRead]
      | ok idx =>
          rw [hfind] at h
          cases idx with
          | none => cases h
          | some idx =>
              cases hfield : line.slice 1 (idx - 1) with
              | error err' =>
                  simp only [Except.mapError, bind, Except.bind, hfield] at h
                  cases h
                  simp [ScanError.OfRead]
              | ok field =>
                  cases hrest : line.slice (idx + sep.length) line.size with
                  | error err' =>
                      simp only [Except.mapError, bind, Except.bind, hfield, hrest] at h
                      cases h
                      simp [ScanError.OfRead]
                  | ok rest =>
                      simp only [Except.mapError, bind, Except.bind, hfield, hrest] at h
                      cases hloop : fieldLoop m sep fuel rest with
                      | ok fields =>
                          rw [hloop] at h
                          cases h
                      | error err' =>
                          rw [hloop] at h
                          cases h
                          exact ih hloop

theorem stringFields_error {m : Memory} {line : Span} {err : ScanError} (h : stringFields m sep line = .error err) :
    ¬ err.OfRead := by
  unfold stringFields at h
  split at h
  · cases h
  · cases hloop : fieldLoop m sep (line.size.toNat + 1) line with
    | ok fields =>
        rw [hloop] at h
        cases h
    | error err' =>
        rw [hloop] at h
        cases h
        exact fieldLoop_error hloop

theorem fields_error {m : Memory} {self : Scanner R} {line : Span} {err : ScanError}
    (h : self.fields e m line = .error err ∨ self.lastFields e m line = .error err) : ¬ err.OfRead := by
  unfold Scanner.fields Scanner.lastFields at h
  rcases h with h | h <;> split at h
  · exact stringFields_error h
  · exact spanFields_error h
  · cases h
  · exact spanFields_error h
  · cases h
  · exact stringFields_error h
  · exact spanFields_error h
  · cases h
    simp [ScanError.OfRead]
  · exact spanFields_error h
  · cases h

/-- A call that fails for its reads has not come to a record. -/
theorem failed_of_error {err : ScanError} (h : w.Sound) (hcall : Call junk e w ending x) (herr : x.2 = .error err)
    (hread : err.OfRead) : x.1.ahead = w.ahead := by
  obtain ⟨w₁, wnd, h₁, -, -, -, hleaves⟩ := hcall.arrives h
  cases ending with
  | terminated r t =>
      cases hleaves with
      | terminated => exact absurd hread (fields_error (.inl herr))
  | ended r =>
      obtain ⟨-, -, w₂, -, -, -, -, -, -, -, -, rfl⟩ := hleaves.ended_spec h₁
      exact absurd hread (fields_error (.inr herr))
  | failed err =>
      obtain ⟨-, -, -, hsame, -⟩ := call_spec h hcall
      exact hsame.symm

/-- `get_line` again and again, with a limit of its own for each call. -/
def retry (junk : Nat → Nat → UInt8) (e : Engine R) : List Int → Reader R → Reader R × List (List UInt8 × List UInt8)
  | [], w => (w, [])
  | max :: limits, w =>
      let w₁ : Reader R := { w with self := { w.self with maxRecordSize := max } }
      let w₂ := (getLine junk e w₁).1
      let (w', rs) := retry junk e limits w₂
      (w', w₁.noted w₂ ++ rs)

/-- Whatever calls fail on the way, the records follow each other in what was
ahead. -/
theorem retry_spec (h : w.Sound) (htrim : w.self.trimRecord = .off) (limits : List Int) :
    ((retry junk e limits w).2.flatMap fun x => x.1 ++ x.2) ++ (retry junk e limits w).1.ahead = w.ahead ∧
      ∀ sep rs, sep ≠ [] → w.self.recordSeparator = .string sep → Records sep (retry junk e limits w).1.ahead rs →
        Records sep w.ahead ((retry junk e limits w).2 ++ rs) := by
  induction limits generalizing w with
  | nil => exact ⟨rfl, fun _ _ _ _ hrs => hrs⟩
  | cons max limits ih =>
      have h₁ : Reader.Sound { w with self := { w.self with maxRecordSize := max } } := ⟨h.within, h.recordSize, h.used⟩
      obtain ⟨ending, hcall⟩ := getLine_call junk e h₁
      obtain ⟨hsound, -, hsame, hgoes⟩ := call_spec h₁ hcall
      have hnoted := noted_eq h₁ htrim hcall
      have hoff := hsame.trimRecord.trans htrim
      obtain ⟨hbytes, hrecords⟩ := ih hsound hoff
      have hstring : ∀ {sep}, w.self.recordSeparator = .string sep →
          (getLine junk e { w with self := { w.self with maxRecordSize := max } }).1.self.recordSeparator = .string sep :=
        fun hsep => hsame.recordSeparator.trans hsep
      simp only [retry, hnoted]
      generalize getLine junk e { w with self := { w.self with maxRecordSize := max } } = x at *
      cases ending with
      | terminated r t =>
          obtain ⟨hcat, hcut⟩ := hgoes
          refine ⟨?_, fun sep rs hne hsep hrs => ?_⟩
          · change w.ahead = r ++ t ++ x.1.ahead at hcat
            rw [Ending.record, List.flatMap_append, List.append_assoc, hbytes, hcat]
            simp
          · have hrest := hrecords sep rs hne (hstring hsep) hrs
            have hfirst := hcut sep hne (hstring hsep)
            change Cut sep w.ahead r t x.1.ahead at hfirst
            generalize x.1.ahead = rest at hfirst hrest
            generalize w.ahead = total at hfirst
            cases hfirst with
            | terminated _ _ heq hbefore =>
                subst heq
                exact .cons hbefore hrest
            | last hsome hno =>
                rw [List.append_assoc, records_nil hne hrest]
                exact .last hsome hno
      | ended r =>
          have hrest := ended_ahead h₁ hcall (by rw [Reader.trimmed, hoff]; rfl)
          obtain ⟨hall, -, hcut⟩ := hgoes
          change w.ahead = r at hall
          rw [hrest] at hbytes hrecords
          obtain ⟨hnone, -⟩ := List.append_eq_nil_iff.mp hbytes
          refine ⟨?_, fun sep rs hne hsep hrs => ?_⟩
          · rw [Ending.record, List.flatMap_append, List.append_assoc, hbytes, hall]
            simp
          · have hfirst := hcut sep hne (hstring hsep)
            rw [Ending.record, List.append_assoc, records_nil hne (hrecords sep rs hne (hstring hsep) hrs)]
            change Cut sep w.ahead r [] [] at hfirst
            rw [hall] at hfirst ⊢
            cases hfirst with
            | terminated => exact absurd rfl hne
            | last hsome hno => exact .last hsome hno
      | failed err =>
          obtain ⟨hsame, -⟩ := hgoes
          change w.ahead = x.1.ahead at hsame
          rw [hsame]
          exact ⟨hbytes, fun sep rs hne hsep hrs => hrecords sep rs hne (hstring hsep) hrs⟩

end

/-! Runs. -/

/-- A call of the program, or something it does elsewhere. -/
inductive ScannerCall where
  | getLine
  | removeLine
  | buffer
  | bufferedLine
  | setBuffer (bs : Span) (offset : Option Int)
  | setMaxRecordSize (n : Int)
  | other (m : Memory)

section
variable {R : Type} (junk : Nat → Nat → UInt8) (e : Engine R)

def ScannerCall.exec (w : Reader R) : ScannerCall → Reader R
  | .getLine => (Bytes.getLine junk e w).1
  | .removeLine => (Bytes.removeLine w).1
  | .buffer | .bufferedLine => w
  | .setBuffer bs offset => (Bytes.setBuffer w bs offset).1
  | .setMaxRecordSize n => { w with self := { w.self with maxRecordSize := n } }
  | .other m => { w with mem := m }

/-- The offset of `set_buffer` is valid, and nothing else writes to the buffer of
the scanner. -/
def ScannerCall.Allowed (w : Reader R) : ScannerCall → Prop
  | .setBuffer bs offset => bs.Within w.mem ∧ 1 ≤ offset.getD 1 ∧ offset.getD 1 ≤ bs.size + 1
  | .other m => w.mem.Grows m ∧ w.self.buffer.window m = w.self.buffer.window w.mem
  | _ => True

def ScannerStep (w : Reader R) (a : ScannerCall) (w' : Reader R) : Prop := a.Allowed w ∧ w' = a.exec junk e w

variable {junk : Nat → Nat → UInt8} {e : Engine R} {w w' w₀ : Reader R} {a : ScannerCall}

theorem exec_sound (h : w.Sound) (hallowed : a.Allowed w) :
    (a.exec junk e w).Sound ∧ w.mem.Grows (a.exec junk e w).mem ∧ (a.exec junk e w).self.trimRecord = w.self.trimRecord := by
  cases a with
  | getLine =>
      obtain ⟨ending, hcall⟩ := getLine_call junk e h
      obtain ⟨hsound, hgrows, hsame, -⟩ := call_spec h hcall
      exact ⟨hsound, hgrows, hsame.trimRecord⟩
  | removeLine =>
      obtain ⟨w', hcall, hsound, hgrows, hsame, -⟩ := removeLine_spec h
      simp only [ScannerCall.exec, hcall]
      exact ⟨hsound, hgrows, hsame.trimRecord⟩
  | buffer | bufferedLine => exact ⟨h, .refl _, rfl⟩
  | setBuffer bs offset =>
      obtain ⟨hin, hlow, hhigh⟩ := hallowed
      obtain ⟨w', hcall, hsound, hgrows, hsame, -⟩ := setBuffer_spec w hin hlow hhigh
      simp only [ScannerCall.exec, hcall]
      exact ⟨hsound, hgrows, hsame.trimRecord⟩
  | setMaxRecordSize n => exact ⟨⟨h.within, h.recordSize, h.used⟩, .refl _, rfl⟩
  | other m => exact ⟨⟨h.within.grow hallowed.1, h.recordSize, h.used⟩, hallowed.1, rfl⟩

theorem reachable_sound (hs : Reachable (· = w₀) (ScannerStep junk e) w) (h₀ : w₀.Sound) :
    w.Sound ∧ w.self.trimRecord = w₀.self.trimRecord := by
  refine hs.invariant (I := fun w => w.Sound ∧ w.self.trimRecord = w₀.self.trimRecord) ?_ ?_
  · rintro _ rfl
    exact ⟨h₀, rfl⟩
  · rintro s a _ ⟨hsound, htrim⟩ ⟨hallowed, rfl⟩
    obtain ⟨hsound', -, htrim'⟩ := exec_sound hsound hallowed
    exact ⟨hsound', htrim'.trans htrim⟩

/-- The current record lies in the part of the buffer that is used, and calls
that fail lose nothing: the records of the calls after them, with whatever
`max_record_size`, are those that were ahead before. -/
theorem failed_calls_keep {m m' : Memory} {cs : List Chunk} {opts : Options R} {scanner : Scanner R}
    (hnew : scannerNew junk m opts = .ok (m', scanner)) (htrim : opts.trimRecord = .off)
    (hs : Reachable (· = (⟨m', cs, scanner⟩ : Reader R)) (ScannerStep junk e) w) :
    (0 ≤ w.self.recordSize ∧ w.self.recordSize ≤ w.self.bufferUsed ∧ w.self.bufferUsed ≤ w.self.buffer.size) ∧
      (∀ err, (getLine junk e w).2 = .error err → err.OfRead → (getLine junk e w).1.ahead = w.ahead) ∧
      ∀ limits,
        ((retry junk e limits w).2.flatMap fun x => x.1 ++ x.2) ++ (retry junk e limits w).1.ahead = w.ahead ∧
        ∀ sep rs, sep ≠ [] → w.self.recordSeparator = .string sep → Records sep (retry junk e limits w).1.ahead rs →
          Records sep w.ahead ((retry junk e limits w).2 ++ rs) := by
  obtain ⟨hnewSound, -, hscanner⟩ := Reader.scannerNew_sound hnew cs
  obtain ⟨hsound, hoff⟩ := reachable_sound hs hnewSound
  refine ⟨⟨hsound.recordSize.1, hsound.recordSize.2, hsound.used⟩, fun err herr hread => ?_, fun limits => ?_⟩
  · obtain ⟨ending, hcall⟩ := getLine_call junk e hsound
    exact failed_of_error hsound hcall herr hread
  · exact retry_spec hsound (hoff.trans (hscanner.trans htrim)) limits

end

/-! What has not been returned. -/

/-- What a call leaves of the bytes it has looked at. -/
def Ending.left (s : List UInt8) : Ending → List UInt8
  | .terminated r t => s.drop (r.length + t.length)
  | .ended _ => []
  | .failed _ => s

/-- A scanner, with the bytes it has been given, by the stream or by
`set_buffer`, and has not returned as records. -/
structure Session (R : Type) where
  reader : Reader R
  pending : List UInt8

section
variable {R : Type} (junk : Nat → Nat → UInt8) (e : Engine R)

def Session.Leaves (s : Session R) : ScannerCall → List UInt8 → Prop
  | .getLine, p => ∃ ending got, Call junk e s.reader ending (getLine junk e s.reader) ∧
      streamBytes s.reader.stream = got ++ streamBytes (getLine junk e s.reader).1.stream ∧ p = ending.left (s.pending ++ got)
  | .setBuffer bs offset, p => p = (bs.read s.reader.mem).drop (offset.getD 1 - 1).toNat
  | _, p => p = s.pending

def SessionStep (s : Session R) (a : ScannerCall) (s' : Session R) : Prop :=
  ScannerStep junk e s.reader a s'.reader ∧ s.Leaves junk e a s'.pending

/-- A record that the end of the stream ends is not made shorter by trimming. -/
def LastWhole (s : Session R) (a : ScannerCall) : Prop :=
  a = .getLine → ∀ r, Call junk e s.reader (.ended r) (getLine junk e s.reader) → (getLine junk e s.reader).1.trimmed r = r

variable {junk : Nat → Nat → UInt8} {e : Engine R} {s s' : Session R} {a : ScannerCall}

theorem continues_left {w : Reader R} {x : Reader R × Except ScanError Record} {ending : Ending} {got : List UInt8}
    (hgot : streamBytes w.stream = got ++ streamBytes x.1.stream) (hgoes : ending.Continues w.ahead x)
    (hlast : ∀ r, ending = .ended r → x.1.ahead = []) : x.1.pending = ending.left (w.pending ++ got) := by
  have hcat {front : List UInt8} (h : w.ahead = front ++ x.1.ahead) : w.pending ++ got = front ++ x.1.pending := by
    rw [Reader.ahead, Reader.ahead, hgot, ← List.append_assoc, ← List.append_assoc] at h
    exact List.append_cancel_right h
  cases ending with
  | terminated r t => rw [Ending.left, hcat hgoes.1, ← List.length_append, List.drop_left]
  | ended r => exact (List.append_eq_nil_iff.mp (hlast r rfl)).1
  | failed err =>
      have hsame : w.ahead = [] ++ x.1.ahead := hgoes.1
      rw [Ending.left, hcat hsame, List.nil_append]

theorem session_step (hsound : s.reader.Sound) (hpending : s.reader.pending = s.pending) (hwhole : LastWhole junk e s a)
    (hstep : SessionStep junk e s a s') : s'.reader.Sound ∧ s'.reader.pending = s'.pending := by
  obtain ⟨⟨hallowed, hreader⟩, hleaves⟩ := hstep
  obtain ⟨hsound', -⟩ := @exec_sound R junk e s.reader a hsound hallowed
  rw [hreader]
  refine ⟨hsound', ?_⟩
  cases a with
  | getLine =>
      obtain ⟨ending, got, hcall, hgot, hleft⟩ := hleaves
      obtain ⟨-, -, -, hgoes⟩ := call_spec hsound hcall
      rw [hleft, ← hpending]
      refine continues_left hgot hgoes fun r hended => ?_
      subst hended
      exact ended_ahead hsound hcall (hwhole rfl r hcall)
  | removeLine =>
      obtain ⟨w', hcall, -, -, -, -, hsame, -⟩ := removeLine_spec hsound
      rw [hleaves, ← hpending, ← hsame]
      simp only [ScannerCall.exec, hcall]
  | setBuffer bs offset =>
      obtain ⟨hin, hlow, hhigh⟩ := hallowed
      obtain ⟨w', hcall, -, -, -, -, hdrop⟩ := setBuffer_spec s.reader hin hlow hhigh
      rw [hleaves, ← hdrop]
      simp only [ScannerCall.exec, hcall]
  | buffer | bufferedLine | setMaxRecordSize => exact hpending.trans hleaves.symm
  | other m =>
      refine Eq.trans ?_ (hpending.trans hleaves.symm)
      exact congrArg (fun xs : List UInt8 => (xs.take s.reader.self.bufferUsed.toNat).drop s.reader.self.recordSize.toNat) hallowed.2

/-- What has not been returned is handed over by `remove_line` and `buffer`, and
taken back by `set_buffer`, as long as no last record is made shorter by
trimming. -/
theorem handed_over {m m' : Memory} {cs : List Chunk} {opts : Options R} {scanner : Scanner R}
    (hnew : scannerNew junk m opts = .ok (m', scanner))
    (hs : Reachable (· = (⟨⟨m', cs, scanner⟩, []⟩ : Session R)) (restrict (LastWhole junk e) (SessionStep junk e)) s) :
    ∃ w bs, removeLine s.reader = (w, .ok ()) ∧ scannerBuffer w.self = .ok (bs, 1) ∧ bs.read w.mem = s.pending ∧
      ∀ offset : Int, 1 ≤ offset → offset ≤ s.pending.length + 1 →
        ∃ w', setBuffer w bs (some offset) = (w', .ok ()) ∧
          ∃ ending, Call junk e w' ending (getLine junk e w') ∧
            ending.Continues (s.pending.drop (offset - 1).toNat ++ streamBytes s.reader.stream) (getLine junk e w') := by
  obtain ⟨hnewSound, hnone, -⟩ := Reader.scannerNew_sound hnew cs
  have hinv : s.reader.Sound ∧ s.reader.pending = s.pending := by
    refine hs.invariant (I := fun s => s.reader.Sound ∧ s.reader.pending = s.pending) ?_ ?_
    · rintro _ rfl
      exact ⟨hnewSound, hnone⟩
    · rintro s a s' ⟨hsound, hpending⟩ ⟨hwhole, hstep⟩
      exact session_step hsound hpending hwhole hstep
  obtain ⟨hsound, hpending⟩ := hinv
  obtain ⟨w, hremove, hwsound, -, -, hstream, hsame, hrecord⟩ := removeLine_spec hsound
  obtain ⟨bs, hbuffer, hin, hread⟩ := scannerBuffer_spec hwsound hrecord
  have hall : bs.read w.mem = s.pending := hread.trans (hsame.trans hpending)
  refine ⟨w, bs, hremove, hbuffer, hall, fun offset hlow hhigh => ?_⟩
  have hlen := hin.read_length
  have hnonneg := hin.size_nonneg
  rw [hall] at hlen
  have hfit : offset ≤ bs.size + 1 := by omega
  obtain ⟨w', hset, hsound', -, -, hstream', hdrop⟩ := @setBuffer_spec R w bs hin (some offset) hlow hfit
  obtain ⟨ending, hcall⟩ := getLine_call junk e hsound'
  obtain ⟨-, -, -, hgoes⟩ := call_spec hsound' hcall
  have hahead : w'.ahead = s.pending.drop (offset - 1).toNat ++ streamBytes s.reader.stream := by
    rw [Reader.ahead, hdrop, hstream', hstream, hall]
    rfl
  exact ⟨w', hset, ending, hcall, hahead ▸ hgoes⟩

end

/-- A new scanner with a buffer of `n` bytes, for lines. -/
def lines (n : Nat) (trim : Trim) (max : Int) (cs : List Chunk) : Reader Unit :=
  ⟨[List.replicate n 0], cs, ⟨.string [10], trim, none, none, max, ⟨some ⟨0, 0⟩, n, n⟩, 0, 0, 0, none⟩⟩

/-- `"abcd\ne"`, with a read that fails on the way. -/
def interruptedChunks : List Chunk := [.data 97 [98, 99], .fail 5, .data 100 [10, 101]]

theorem failed_calls_keep_interrupted :
    ∃ w, Reachable (· = lines 2 .off 2 interruptedChunks) (ScannerStep (fun _ _ => 0) noEngine) w ∧
      (getLine (fun _ _ => 0) noEngine w).2 = .error .msgSize ∧ (getLine (fun _ _ => 0) noEngine w).1.ahead = w.ahead ∧
      (retry (fun _ _ => 0) noEngine [4, 4, 8] w).2 = [([97, 98, 99, 100], [10])] := by
  have hrun : Reachable (· = lines 2 .off 2 interruptedChunks) (ScannerStep (fun _ _ => 0) noEngine)
      (getLine (fun _ _ => 0) noEngine (lines 2 .off 2 interruptedChunks)).1 :=
    ⟨_, rfl, .single ⟨.getLine, trivial, rfl⟩⟩
  have hnew : scannerNew (fun _ _ => 0) [] ⟨some (.string [10]), .off, none, none, some 2, some 2⟩ =
      .ok ((lines 2 .off 2 []).mem, (lines 2 .off 2 []).self) := rfl
  obtain ⟨-, hkeep, -⟩ := @failed_calls_keep Unit (fun _ _ => 0) noEngine _ _ _ interruptedChunks _ _ hnew rfl hrun
  have herr : (getLine (fun _ _ => 0) noEngine
      (getLine (fun _ _ => 0) noEngine (lines 2 .off 2 interruptedChunks)).1).2 = .error .msgSize := by decide
  exact ⟨_, hrun, herr, hkeep _ herr (.inl rfl), by decide⟩

/-- `"a\nbc"`, in two chunks. -/
def twoChunks : List Chunk := [.data 97 [10, 98], .data 99 []]

theorem handed_over_chunk :
    ∃ s, Reachable (· = (⟨lines 8 .on 8 twoChunks, []⟩ : Session Unit))
        (restrict (LastWhole (fun _ _ => 0) noEngine) (SessionStep (fun _ _ => 0) noEngine)) s ∧
      s.pending = [98] ∧
      ∃ w bs, removeLine s.reader = (w, .ok ()) ∧ scannerBuffer w.self = .ok (bs, 1) ∧ bs.read w.mem = [98] := by
  have hnew : scannerNew (fun _ _ => 0) [] ⟨some (.string [10]), .on, none, none, some 8, some 8⟩ =
      .ok ((lines 8 .on 8 []).mem, (lines 8 .on 8 []).self) := rfl
  have hsound := (@Reader.scannerNew_sound Unit (fun _ _ => 0) _ _ _ _ hnew twoChunks).1
  have hcall : Call (fun _ _ => 0) noEngine (lines 8 .on 8 twoChunks) (.terminated [97] [10])
      (getLine (fun _ _ => 0) noEngine (lines 8 .on 8 twoChunks)) :=
    .intro rfl (.read rfl rfl rfl rfl rfl (.refl _ _))
      (@Leaves.terminated Unit _ _ _ _ ⟨some ⟨0, 0⟩, 1, 8⟩ (.literal [10]) 2 rfl)
  have hwhole : LastWhole (fun _ _ => 0) noEngine ⟨lines 8 .on 8 twoChunks, []⟩ .getLine := by
    intro _ r hended
    obtain ⟨-, -, -, -, hend, -⟩ := call_spec hsound hended
    cases hend
  have hstep : SessionStep (fun _ _ => 0) noEngine ⟨lines 8 .on 8 twoChunks, []⟩ .getLine
      ⟨(getLine (fun _ _ => 0) noEngine (lines 8 .on 8 twoChunks)).1, [98]⟩ :=
    ⟨⟨trivial, rfl⟩, _, [97, 10, 98], hcall, rfl, rfl⟩
  have hrun : Reachable (· = (⟨lines 8 .on 8 twoChunks, []⟩ : Session Unit))
      (restrict (LastWhole (fun _ _ => 0) noEngine) (SessionStep (fun _ _ => 0) noEngine)) _ :=
    ⟨_, rfl, .single ⟨.getLine, hwhole, hstep⟩⟩
  obtain ⟨w, bs, hremove, hbuffer, hread, -⟩ := handed_over hnew hrun
  exact ⟨_, hrun, rfl, w, bs, hremove, hbuffer, hread⟩

/-- Both lines of `"a\n b "` have been returned, and the end of the second one is
handed over. -/
theorem returned_bytes_handed_over :
    ∃ m scanner, scannerNew (fun _ _ => 0) [] ⟨some (.string [10]), .on, none, none, some 8, some 8⟩ = .ok (m, scanner) ∧
      (getLines (fun _ _ => 0) noEngine 2 ⟨m, paddedChunks [32], scanner⟩).2 = [some ([97], [10], 1), some ([98], [], 2)] ∧
      (removeLine (getLines (fun _ _ => 0) noEngine 2 ⟨m, paddedChunks [32], scanner⟩).1).2 = .ok () ∧
      (scannerBuffer (removeLine (getLines (fun _ _ => 0) noEngine 2 ⟨m, paddedChunks [32], scanner⟩).1).1.self).map
          (fun x => x.1.read (removeLine (getLines (fun _ _ => 0) noEngine 2 ⟨m, paddedChunks [32], scanner⟩).1).1.mem) =
        .ok [98, 32] :=
  ⟨_, _, rfl, by decide, by decide, by decide⟩

end Emilua.Bytes
