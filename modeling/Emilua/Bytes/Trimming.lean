import Mathlib.Data.List.DropRight
import Emilua.Bytes.Lines
import Emilua.Bytes.Windows

/-!
`get_line` with `trim_record`, against the same calls without it, and
`buffered_line`. A record that has a terminator is trimmed after its size has
been noted, the last record before; a size that is too small leaves part of the
last record in the buffer.
-/
namespace Emilua.Bytes
open Split

/-- The record that `get_line` found last, as it is in the buffer. There is none
before the first call. -/
def Scanner.bufferedLine {R : Type} (self : Scanner R) : Option (Except Error Span) :=
  self.recordTerminator.map fun terminator => self.buffer.slice 1 (self.recordSize - terminator.size)

/-! What trimming does to the bytes. -/

def trimBytes (set s : List UInt8) : List UInt8 :=
  (s.dropWhile (set.contains ·)).rdropWhile (set.contains ·)

theorem dropWhile_stop {p : UInt8 → Bool} {s : List UInt8} (h : ∀ c ∈ s.head?, p c = false) :
    s.dropWhile p = s := by
  cases s with
  | nil => rfl
  | cons c s => rw [List.dropWhile_cons_of_neg (by simp [h c rfl])]

theorem trimBytes_eq {set pre mid post : List UInt8} (hpre : ∀ c ∈ pre, c ∈ set)
    (hpost : ∀ c ∈ post, c ∈ set) (hhead : ∀ c ∈ mid.head?, c ∉ set)
    (hlast : ∀ c ∈ mid.getLast?, c ∉ set) (hne : mid ≠ []) :
    trimBytes set (pre ++ mid ++ post) = mid := by
  obtain ⟨c, rest, rfl⟩ := List.exists_cons_of_ne_nil hne
  have hfront : (pre ++ (c :: rest) ++ post).dropWhile (set.contains ·) = c :: rest ++ post := by
    rw [List.append_assoc, List.dropWhile_append_of_pos (by simpa using hpre)]
    exact dropWhile_stop (by simpa using hhead c rfl)
  rw [trimBytes, hfront, List.rdropWhile, List.reverse_append,
    List.dropWhile_append_of_pos (by simpa using hpost), dropWhile_stop, List.reverse_reverse]
  intro d hd
  rw [List.head?_reverse] at hd
  simpa using hlast d hd

theorem trimBytes_all {set s : List UInt8} (h : ∀ c ∈ s, c ∈ set) : trimBytes set s = [] := by
  have hnil : s.dropWhile (set.contains ·) = [] := by simpa using h
  rw [trimBytes, hnil, List.rdropWhile_nil]

theorem trimBytes_infix (set s : List UInt8) : trimBytes set s <:+: s :=
  (List.rdropWhile_prefix _ _).isInfix.trans (List.dropWhile_suffix _).isInfix

/-- Trimming that does not make a record shorter leaves it alone. -/
theorem trimBytes_of_length {set s : List UInt8} (h : (trimBytes set s).length = s.length) :
    trimBytes set s = s := ( trimBytes_infix set s).eq_of_length h

theorem findFirstNotOf_none {s set : List UInt8} (h : findFirstNotOf s set 0 = none) :
    ∀ c ∈ s, c ∈ set := by
  intro c hc
  obtain ⟨i, hlt, rfl⟩ := List.mem_iff_getElem.mp hc
  have hno := List.find?_eq_none.mp h i (List.mem_range.mpr hlt)
  simpa [List.getElem?_eq_getElem hlt] using hno

theorem findLastNotOf_none {s set : List UInt8} (h : findLastNotOf s set s.length = none) :
    ∀ c ∈ s, c ∈ set := by
  intro c hc
  obtain ⟨i, hlt, rfl⟩ := List.mem_iff_getElem.mp hc
  have hno := List.find?_eq_none.mp h i (List.mem_reverse.mpr (List.mem_range.mpr hlt))
  simpa [List.getElem?_eq_getElem hlt, Nat.le_of_lt hlt] using hno

theorem lastIndex_spec {n i : Nat} {p : Nat → Bool} (h : lastIndex n p = some i) : p i = true :=
  List.find?_some h

theorem trimBytes_window {s set : List UInt8} {start stop : Nat}
    (hstart : findFirstNotOf s set 0 = some start)
    (hstop : findLastNotOf s set s.length = some stop) :
    start ≤ stop ∧ stop < s.length ∧
      trimBytes set s = (s.drop start).take (stop - start + 1) := by
  obtain ⟨hlt, hfirst, hbefore⟩ := firstIndex_spec hstart
  have hlast := lastIndex_spec hstop
  have hstoplt := lastIndex_lt hstop
  simp only [Bool.and_eq_true] at hfirst hlast
  have hle : start ≤ stop := lastIndex_ge hstop hlt (by simpa [Nat.le_of_lt hlt] using hfirst.2)
  refine ⟨hle, hstoplt, ?_⟩
  have hsplit : s = s.take start ++ (s.drop start).take (stop - start + 1) ++ s.drop (stop + 1) := by
    have hrest : (s.drop start).drop (stop - start + 1) = s.drop (stop + 1) := by
      rw [List.drop_drop]
      congr 1
      omega
    rw [List.append_assoc, ← hrest, List.take_append_drop, List.take_append_drop]
  have hmid : ∀ k, k < stop - start + 1 →
      ((s.drop start).take (stop - start + 1))[k]? = s[start + k]? := by
    intro k hk
    rw [List.getElem?_take_of_lt hk, List.getElem?_drop]
  have hlength : ((s.drop start).take (stop - start + 1)).length = stop - start + 1 := by
    rw [List.length_take, List.length_drop]
    omega
  conv_lhs => rw [hsplit]
  apply trimBytes_eq
  · intro c hc
    obtain ⟨k, hk, rfl⟩ := List.mem_iff_getElem.mp hc
    rw [List.length_take] at hk
    have hno := hbefore k (by omega)
    rw [List.getElem_take]
    simpa [List.getElem?_eq_getElem (show k < s.length by omega)] using hno
  · intro c hc
    obtain ⟨k, hk, rfl⟩ := List.mem_iff_getElem.mp hc
    rw [List.length_drop] at hk
    rw [List.getElem_drop]
    by_contra hno
    have hge := lastIndex_ge hstop (show stop + 1 + k < s.length by omega) (by
      simp [List.getElem?_eq_getElem (show stop + 1 + k < s.length by omega), hno]
      omega)
    omega
  · intro c hc
    rw [List.head?_eq_getElem?, hmid 0 (Nat.succ_pos _)] at hc
    have hin := hfirst.2
    rw [← Nat.add_zero start, Option.mem_def.mp hc] at hin
    simpa using hin
  · intro c hc
    rw [List.getLast?_eq_getElem?, hlength, hmid _ (by omega)] at hc
    have hin := hlast.2
    rw [show stop = start + (stop - start + 1 - 1) by omega, Option.mem_def.mp hc] at hin
    simpa using hin
  · intro hnil
    rw [hnil] at hlength
    cases hlength

/-- A trimmed span is the window of the trimmed bytes. -/
theorem trimmed_spec {m : Memory} {bs : Span} (h : bs.Within m) (set : View) :
    (bs.trimmed m set).Within m ∧
      (bs.trimmed m set).read m = trimBytes (set.read m) (bs.read m) := by
  have hlen := h.read_length
  have hnonneg := h.size_nonneg
  have hcap := h.size_le
  unfold Span.trimmed
  split
  · rename_i start stop hstart hstop
    obtain ⟨hle, hlt, htrim⟩ := trimBytes_window hstart hstop
    obtain ⟨part, hslice, hin, hsize, -, hwindow, -⟩ :=
      slice_spec h (start + 1) (stop + 1) (by omega) (by omega) (by omega)
    have hspan : part = ⟨bs.data.map (·.add start), (stop : Int) - start + 1, bs.capacity - start⟩ := by
      unfold Span.slice at hslice
      rw [if_neg (by omega), if_neg (by omega)] at hslice
      rw [← Except.ok.inj hslice, show ((start : Int) + 1 - 1).toNat = start by omega,
        show (stop : Int) + 1 - (start + 1) + 1 = stop - start + 1 by omega,
        show bs.capacity - ((start : Int) + 1) + 1 = bs.capacity - start by omega]
    rw [← hspan]
    refine ⟨hin, ?_⟩
    rw [htrim, hin.read_eq, hwindow, hsize, h.read_eq, List.drop_take, List.take_take]
    rw [show ((start : Int) + 1 - 1).toNat = start by omega]
    congr 1
    omega
  · rename_i hnone
    refine ⟨within_null m, ?_⟩
    have hall : ∀ c ∈ bs.read m, c ∈ set.read m := by
      cases hstart : findFirstNotOf (bs.read m) (set.read m) 0 with
      | none => exact findFirstNotOf_none hstart
      | some start =>
          cases hstop : findLastNotOf (bs.read m) (set.read m) (bs.read m).length with
          | none => exact findLastNotOf_none hstop
          | some stop => exact absurd hstop (hnone start stop hstart)
    rw [trimBytes_all hall]
    rfl

/-! The same calls with and without trimming. -/

def Reader.withTrim {R : Type} (w : Reader R) (trim : Trim) : Reader R :=
  { w with self := { w.self with trimRecord := trim } }

/-- What a call leaves and returns, once its records are trimmed as well. -/
def Reader.retrim {R : Type} (trim : Trim) (w : Reader R) :
    Except ScanError Record → Reader R × Except ScanError Record
  | .ok (.line bs) =>
      let line := trim.apply w.mem bs
      let self := { w.self with trimRecord := trim }
      (if w.self.recordTerminator = some (.literal []) then
        { w with self := { self with recordSize := line.size } }
      else { w with self }, .ok (.line line))
  | r => (w.withTrim trim, r)

section
variable {R : Type} {junk : Nat → Nat → UInt8} {e : Engine R} {sep rest total : List UInt8}
  {max number : Int} {w : Reader R} {wnd : Span}

@[simp] theorem withTrim_mem (w : Reader R) (trim : Trim) : (w.withTrim trim).mem = w.mem := rfl

@[simp] theorem withTrim_stream (w : Reader R) (trim : Trim) : (w.withTrim trim).stream = w.stream := rfl

@[simp] theorem withTrim_buffer (w : Reader R) (trim : Trim) :
    (w.withTrim trim).self.buffer = w.self.buffer := rfl

@[simp] theorem withTrim_bufferUsed (w : Reader R) (trim : Trim) :
    (w.withTrim trim).self.bufferUsed = w.self.bufferUsed := rfl

@[simp] theorem withTrim_recordSize (w : Reader R) (trim : Trim) :
    (w.withTrim trim).self.recordSize = w.self.recordSize := rfl

theorem grow_withTrim (junk : Nat → Nat → UInt8) (w : Reader R) (trim : Trim) :
    (w.withTrim trim).grow junk = (w.grow junk).map (·.withTrim trim) := by
  unfold Reader.grow Reader.withTrim
  dsimp only
  by_cases hfull : w.self.buffer.size = w.self.bufferUsed
  · rw [if_pos hfull, if_pos hfull]
    generalize min (w.self.buffer.size * 2) w.self.maxRecordSize = size
    by_cases hlimit : w.self.buffer.size ≥ size
    · rw [if_pos hlimit, if_pos hlimit]
      rfl
    · rw [if_neg hlimit, if_neg hlimit]
      cases newSpan size size <;> rfl
  · rw [if_neg hfull, if_neg hfull]
    rfl

theorem findRecord_terminator (hplain : Plain sep max w.self) {line : Span} {terminator : View} {size : Int}
    (h : w.self.findRecord e w.mem wnd = .ok (some (line, terminator, size))) :
    terminator = .literal sep := by
  simp only [Scanner.findRecord, hplain.separator] at h
  cases hfind : wnd.searchFrom find w.mem (.literal sep) 1 with
  | error err =>
      rw [hfind] at h
      cases h
  | ok idx =>
      cases idx with
      | none =>
          rw [hfind] at h
          cases h
      | some idx =>
          cases hslice : wnd.slice 1 (idx - 1) with
          | error err =>
              simp only [hfind, hslice, bind, Except.bind] at h
              cases h
          | ok line =>
              simp only [hfind, hslice, bind, Except.bind] at h
              cases h
              rfl

theorem Plain.grow {w' : Reader R} (hplain : Plain sep max w.self) (h : w.grow junk = .ok w') :
    Plain sep max w'.self := by
  unfold Reader.grow at h
  split at h
  · simp only at h
    split at h
    · cases h
    · cases hnew : newSpan (min (w.self.buffer.size * 2) w.self.maxRecordSize)
        (min (w.self.buffer.size * 2) w.self.maxRecordSize) with
      | error err =>
          rw [hnew] at h
          cases h
      | ok c =>
          rw [hnew] at h
          cases h
          exact ⟨hplain.separator, hplain.trim, hplain.fieldSeparator, hplain.fieldPattern, hplain.max⟩
  · cases h
    exact hplain

theorem loop_withTrim (hplain : Plain sep max w.self) (hsep : sep ≠ []) (trim : Trim) (fuel : Nat)
    (wnd : Span) : (w.withTrim trim).loop junk e fuel wnd =
      Reader.retrim trim (w.loop junk e fuel wnd).1 (w.loop junk e fuel wnd).2 := by
  induction fuel generalizing w wnd with
  | zero => rfl
  | succ fuel ih =>
      rw [Reader.loop, Reader.loop, grow_withTrim]
      change (w.withTrim trim).raise (w.self.findRecord e w.mem wnd) _ = _
      cases hrecord : w.self.findRecord e w.mem wnd with
      | error err => rfl
      | ok record =>
          cases record with
          | some record =>
              obtain ⟨line, terminator, size⟩ := record
              have hterminator := findRecord_terminator hplain hrecord
              have hno : View.literal sep ≠ .literal [] := by simpa using hsep
              simp [Reader.raise, Reader.found, Reader.withTrim, Reader.retrim, Scanner.fields,
                hplain.fieldSeparator, hplain.fieldPattern, hplain.trim, Trim.apply, hterminator, hsep]
          | none =>
              simp only [Reader.raise]
              cases hgrow : w.grow junk with
              | error err => rfl
              | ok w' =>
                  have hplain' := hplain.grow hgrow
                  simp only [Except.map, withTrim_mem, withTrim_stream, withTrim_buffer, withTrim_bufferUsed]
                  cases w'.self.buffer.slice (1 + w'.self.bufferUsed) w'.self.buffer.size with
                  | error err => rfl
                  | ok target =>
                      simp only
                      generalize readSome w'.mem target w'.stream = got
                      obtain ⟨m, stream, result⟩ := got
                      cases result with
                      | error err =>
                          simp only
                          by_cases hfailed : err ≠ .eof ∨ wnd.size = 0
                          · simp only [if_pos hfailed]
                            rfl
                          · simp only [if_neg hfailed]
                            simp [Reader.last, Reader.withTrim, Reader.retrim, Scanner.lastFields,
                              hplain'.fieldSeparator, hplain'.fieldPattern, hplain'.trim,
                              Trim.apply, hplain'.separator]
                      | ok n =>
                          simp only
                          cases w'.self.buffer.slice 1 (w'.self.bufferUsed + n) with
                          | error err => rfl
                          | ok wnd' =>
                              exact @ih ⟨m, stream, { w'.self with
                                bufferUsed := w'.self.bufferUsed + n }⟩ (hplain'.update ..) wnd'

theorem getLine_withTrim (hplain : Plain sep max w.self) (hsep : sep ≠ []) (trim : Trim) :
    getLine junk e (w.withTrim trim) =
      Reader.retrim trim (getLine junk e w).1 (getLine junk e w).2 := by
  rw [getLine, getLine]
  have hsame : (w.withTrim trim).self.recordSize = w.self.recordSize := rfl
  have hmark : ((w.withTrim trim).self.recordSize > 0) = (w.self.recordSize > 0) := rfl
  simp only [Reader.raise, withTrim_buffer, withTrim_bufferUsed]
  rw [hsame]
  cases w.self.buffer.slice 1 (w.self.bufferUsed - w.self.recordSize) with
  | error err => rfl
  | ok wnd =>
      dsimp only
      by_cases hrecord : w.self.recordSize > 0
      · rw [if_pos (hmark ▸ hrecord), if_pos hrecord]
        cases w.self.buffer.slice (1 + w.self.recordSize) w.self.buffer.size with
        | error err => rfl
        | ok src =>
            exact @loop_withTrim _ _ _ _ _ ⟨(wnd.copy w.mem (.window src)).1, w.stream, { w.self with
              bufferUsed := w.self.bufferUsed - w.self.recordSize, recordSize := 0 }⟩
              (hplain.update ..) hsep trim _ wnd
      · rw [if_neg (hmark ▸ hrecord), if_neg hrecord]
        exact loop_withTrim hplain hsep trim _ wnd

/-! The calls without trimming, on any stream that does not fail. -/

/-- What a call does to the record `r` that comes first in `total`. -/
inductive Outcome (sep : List UInt8) (max number : Int) (total : List UInt8) (size : Int) :
    Reader R × Except ScanError Record → Prop
  | record {w : Reader R} {bs : Span} {r t rest : List UInt8} (hcut : Cut sep total r t rest)
      (hready : Ready sep max (number + 1) rest w) (hin : bs.Within w.mem) (hread : bs.read w.mem = r)
      (hterminator : w.self.recordTerminator = some (.literal t))
      (hrecord : w.self.recordSize = r.length + t.length)
      (hbuffer : (w.self.buffer.window w.mem).take r.length = r)
      (hgrown : size ≤ w.self.buffer.size ∧ w.self.buffer.size ≤ Max.max size max)
      (hshort : Short w.self.buffer.size r t) : Outcome sep max number total size (w, .ok (.line bs))
  | eof {w : Reader R} (hready : Ready sep max number total w) (hend : total = [])
      (hgrown : size ≤ w.self.buffer.size ∧ w.self.buffer.size ≤ Max.max size max) :
      Outcome sep max number total size (w, .error .eof)
  | msgSize {w : Reader R} (hready : Ready sep max number total w)
      (hgrown : size ≤ w.self.buffer.size ∧ w.self.buffer.size ≤ Max.max size max)
      (hlimit : max ≤ w.self.buffer.size)
      (hlong : ∀ r t rest, Cut sep total r t rest → ¬ Short w.self.buffer.size r t) :
      Outcome sep max number total size (w, .error .msgSize)

theorem Looking.ready (h : Looking sep max number total w wnd) : Ready sep max number total w where
  plain := h.plain
  number := h.number
  within := h.within
  pos := h.pos
  recordSize := by
    have hsize := h.wnd_size
    have hnonneg := h.wnd_within.size_nonneg
    rw [h.recordSize]
    omega
  used := h.used
  reads := h.reads
  rest := by
    have hzero : (0 : Int).toNat = 0 := rfl
    rw [h.recordSize, hzero, List.drop_zero, ← h.wnd_read]
    exact h.rest

/-- A buffer that is full and has no record is too small for the first one. -/
theorem Looking.full_long (h : Looking sep max number total w wnd) (hsep : sep ≠ [])
    (hnone : firstAt sep (wnd.read w.mem) = none) (hfull : w.self.buffer.size = w.self.bufferUsed)
    {r t : List UInt8} (hcut : Cut sep total r t rest) : ¬ Short w.self.buffer.size r t := by
  rintro ⟨hfits, hlast⟩
  have hlen := h.wnd_within.read_length
  have hnonneg := h.wnd_within.size_nonneg
  have hsize := h.wnd_size
  cases hcut with
  | terminated _ _ heq _ =>
      refine firstAt_none hsep hnone r.length (occurs_of_append (streamBytes w.stream) ?_ (by omega))
      rw [h.rest, heq, List.append_assoc, List.drop_left]
      exact List.prefix_append _ _
  | last =>
      have hle : (wnd.read w.mem).length ≤ total.length := by
        rw [← h.rest, List.length_append]
        exact Nat.le_add_right _ _
      have hlt := hlast rfl
      omega

/-- The buffer grows, or the call fails for the length of the record. -/
theorem Looking.grow_cases (junk : Nat → Nat → UInt8) (h : Looking sep max number total w wnd) :
    (w.grow junk = .error .msgSize ∧ w.self.buffer.size = w.self.bufferUsed ∧ max ≤ w.self.buffer.size) ∨
      ∃ w', w.grow junk = .ok w' ∧ Looking sep max number total w' wnd ∧
        w'.self.bufferUsed < w'.self.buffer.size ∧ w'.stream = w.stream ∧
        w.self.buffer.size ≤ w'.self.buffer.size ∧
        w'.self.buffer.size ≤ Max.max w.self.buffer.size max := by
  have hpos := h.pos
  have hmax := h.plain.max
  by_cases hlimit : w.self.buffer.size = w.self.bufferUsed ∧ max ≤ w.self.buffer.size
  · refine .inl ⟨?_, hlimit⟩
    rw [Reader.grow, if_pos hlimit.1, hmax]
    exact if_pos (by omega)
  · obtain ⟨w', hgrow, h', hroom, hstream⟩ := grow_spec junk h fun hfull => by omega
    refine .inr ⟨w', hgrow, h', hroom, hstream, ?_⟩
    unfold Reader.grow at hgrow
    split at hgrow
    · rw [hmax] at hgrow
      simp only at hgrow
      rw [if_neg (by omega), newSpan, if_neg (by omega), if_neg (by omega)] at hgrow
      cases hgrow
      change w.self.buffer.size ≤ min (w.self.buffer.size * 2) max ∧
        min (w.self.buffer.size * 2) max ≤ Max.max w.self.buffer.size max
      omega
    · cases hgrow
      omega

theorem Looking.cut (h : Looking sep max number total w wnd) (hsep : sep ≠ []) {i : Nat}
    (hi : firstAt sep (wnd.read w.mem) = some i) : Cut sep total ((wnd.read w.mem).take i) sep
      ((wnd.read w.mem).drop (i + sep.length) ++ streamBytes w.stream) := by
  rw [← h.rest]
  exact cut_first hsep hi (streamBytes w.stream)

/-- What has been read so far stands at the front of the buffer. -/
theorem Looking.take_buffer (h : Looking sep max number total w wnd) {i : Nat}
    (hi : i ≤ (wnd.read w.mem).length) :
    (w.self.buffer.window w.mem).take i = (wnd.read w.mem).take i := by
  have hlen := h.wnd_within.read_length
  have hsize := h.wnd_size
  rw [h.wnd_read, List.take_take]
  congr 1
  omega

theorem loop_outcome (h : Looking sep max number total w wnd) (hsep : sep ≠ []) {size : Int}
    (hgrown : size ≤ w.self.buffer.size ∧ w.self.buffer.size ≤ Max.max size max) {fuel : Nat}
    (hfuel : (streamBytes w.stream).length < fuel) :
    Outcome sep max number total size (w.loop junk e fuel wnd) := by
  induction fuel generalizing w wnd with
  | zero => exact absurd hfuel (Nat.not_lt_zero _)
  | succ fuel ih =>
      have hlen := h.wnd_within.read_length
      have hsize := h.wnd_size
      have hnonneg := h.wnd_within.size_nonneg
      cases hi : firstAt sep (wnd.read w.mem) with
      | some i =>
          obtain ⟨line, hloop, hin, hline⟩ := loop_found junk e h hsep fuel hi
          have hle := occurs_length hsep (firstAt_some hi).1
          have hused := h.used
          have htake : ((wnd.read w.mem).take i).length = i := by
            rw [List.length_take]
            omega
          rw [hloop]
          refine .record (h.cut hsep hi) (h.ready_found hsep hi) hin hline rfl ?_ ?_ hgrown ?_
          · rw [htake]
          · rw [htake]
            exact h.take_buffer (by omega)
          · refine ⟨?_, fun hnil => absurd hnil hsep⟩
            rw [htake]
            change ((i + sep.length : Nat) : Int) ≤ w.self.buffer.size
            omega
      | none =>
          have hrecord := findRecord_none (e := e) h hsep hi
          rcases h.grow_cases junk with ⟨hgrow, hfull, hlimit⟩ |
            ⟨w₁, hgrow, h₁, hroom, hstream, hlow, hhigh⟩
          · rw [Reader.loop, hrecord]
            simp only [Reader.raise, hgrow]
            exact .msgSize h.ready hgrown hlimit fun r t rest hcut => h.full_long hsep hi hfull hcut
          · have hused : 0 ≤ w₁.self.bufferUsed := h₁.wnd_size ▸ h₁.wnd_within.size_nonneg
            have hgrown₁ : size ≤ w₁.self.buffer.size ∧ w₁.self.buffer.size ≤ Max.max size max := by
              omega
            obtain ⟨target, htarget, -⟩ := slice_spec h₁.within (1 + w₁.self.bufferUsed)
              w₁.self.buffer.size (by omega) (by omega) h₁.within.size_le
            cases hs : w₁.stream with
            | nil =>
                have hread : wnd.read w₁.mem = total := by
                  have hrest := h₁.rest
                  rwa [hs, streamBytes, List.append_nil] at hrest
                have hsame : wnd.read w.mem = total := by
                  have hrest := h.rest
                  rwa [← hstream, hs, streamBytes, List.append_nil] at hrest
                have hlen₁ := h₁.wnd_within.read_length
                rw [hread] at hlen₁
                rw [hsame] at hi
                by_cases hzero : wnd.size = 0
                · rw [Reader.loop, hrecord]
                  simp only [Reader.raise, hgrow, htarget, hs, readSome, hzero, or_true, if_true,
                    ReadError.raised]
                  rw [← hs]
                  exact .eof h₁.ready (List.eq_nil_of_length_eq_zero (by omega)) hgrown₁
                · have hne : total ≠ [] := by
                    rintro rfl
                    rw [List.length_nil] at hlen₁
                    omega
                  have hloop : w.loop junk e (fuel + 1) wnd =
                      ({ w₁ with stream := [], self := { w₁.self with
                        recordTerminator := some (.literal []), recordSize := wnd.size,
                        recordNumber := w₁.self.recordNumber + 1 } }, .ok (.line wnd)) := by
                    rw [Reader.loop, hrecord]
                    simp only [Reader.raise, hgrow, htarget, hs, readSome, ne_eq, not_true_eq_false,
                      hzero, or_self, if_false, Reader.last, h₁.plain.trim, Trim.apply,
                      h₁.plain.separator, Scanner.lastFields, h₁.plain.fieldSeparator,
                      h₁.plain.fieldPattern]
                  rw [hloop]
                  refine .record (.last hne (firstAt_none hsep hi)) h₁.ready_last h₁.wnd_within hread
                    rfl ?_ ?_ hgrown₁ ?_
                  · change wnd.size = (total.length : Int) + 0
                    omega
                  · have htake := h₁.take_buffer (Nat.le_refl _)
                    rw [List.take_length, hread] at htake
                    exact htake
                  · have hroom' : (total.length : Int) < w₁.self.buffer.size := by
                      have hsize₁ := h₁.wnd_size
                      omega
                    exact ⟨by simpa using Int.le_of_lt hroom', fun _ => hroom'⟩
            | cons c cs =>
                cases c with
                | fail code =>
                    refine absurd ?_ (h₁.reads code)
                    rw [hs]
                    exact List.mem_cons_self
                | data b xs =>
                    obtain ⟨m, stream, n, hsome, hn, hlength, wnd', hwnd', h'⟩ :=
                      read_spec h₁ hroom hs htarget
                    have hloop : w.loop junk e (fuel + 1) wnd =
                        (⟨m, stream, { w₁.self with
                          bufferUsed := w₁.self.bufferUsed + n }⟩ : Reader R).loop junk e fuel wnd' := by
                      rw [Reader.loop, hrecord]
                      simp only [Reader.raise, hgrow, htarget, hsome, hwnd']
                    rw [hloop]
                    refine ih h' hgrown₁ ?_
                    change (streamBytes stream).length < fuel
                    rw [hstream] at hlength
                    omega

theorem getLine_outcome (junk : Nat → Nat → UInt8) (e : Engine R) (h : Ready sep max number total w)
    (hsep : sep ≠ []) {size : Int}
    (hgrown : size ≤ w.self.buffer.size ∧ w.self.buffer.size ≤ Max.max size max) :
    Outcome sep max number total size (getLine junk e w) := by
  obtain ⟨w₁, wnd, hcall, hlooking, hbuffer⟩ := getLine_loop junk e h
  rw [hcall]
  exact loop_outcome hlooking hsep (by rw [hbuffer]; exact hgrown) (Nat.lt_succ_self _)

/-! The two scanners from call to call. -/

/-- `trim_record` is `true` or a set of bytes. -/
def trimOption : Option (List UInt8) → Trim
  | none => .on
  | some set => .set (.literal set)

def trimSet : Option (List UInt8) → List UInt8
  | none => lws
  | some set => set

theorem apply_spec {m : Memory} {bs : Span} (h : bs.Within m) (set : Option (List UInt8)) :
    ((trimOption set).apply m bs).Within m ∧
      ((trimOption set).apply m bs).read m = trimBytes (trimSet set) (bs.read m) := by
  cases set with
  | none => exact trimmed_spec h (.literal lws)
  | some set => exact trimmed_spec h (.literal set)

/-- A call with trimming does what the call without it does, returns the same
record trimmed, and leaves it in the buffer as it was. -/
def Trims (set : List UInt8) (x y : Reader R × Except ScanError Record) : Prop :=
  match x.2, y.2 with
  | .ok (.line bs), .ok (.line raw) =>
      bs.read x.1.mem = trimBytes set (raw.read y.1.mem) ∧
        ∃ whole, x.1.self.bufferedLine = some (.ok whole) ∧ whole.read x.1.mem = raw.read y.1.mem
  | .error err, .error err' => err = err'
  | _, _ => False

theorem buffered_spec (h : w.self.buffer.Within w.mem) {t : List UInt8} {n : Nat}
    (hterminator : w.self.recordTerminator = some (.literal t))
    (hrecord : w.self.recordSize = n + t.length) (hle : (n : Int) ≤ w.self.buffer.capacity) :
    ∃ whole, w.self.bufferedLine = some (.ok whole) ∧
      whole.read w.mem = (w.self.buffer.window w.mem).take n := by
  obtain ⟨whole, hslice, hin, hsize, -, hwindow, -⟩ := slice_spec h 1 n le_rfl (by omega) hle
  refine ⟨whole, ?_, ?_⟩
  · have hstop : (n : Int) + t.length - t.length = n := by omega
    rw [Scanner.bufferedLine, hterminator, Option.map_some, hrecord, View.size, hstop, hslice]
  · rw [hin.read_eq, hwindow, hsize]
    congr 1
    omega

/-- The record is in the buffer and fits there. -/
theorem Ready.record_le (h : Ready sep max number rest w) {n : Nat} {t : List UInt8}
    (hrecord : w.self.recordSize = n + t.length) : (n : Int) ≤ w.self.buffer.capacity := by
  have hcap := h.within.size_le
  have hused := h.used
  obtain ⟨-, hle⟩ := h.recordSize
  omega

/-- A record with a terminator: only the returned span differs. -/
theorem trims_terminated {bs : Span} {r t : List UInt8} (hready : Ready sep max number rest w)
    (ht : t ≠ []) (hin : bs.Within w.mem) (hread : bs.read w.mem = r)
    (hterminator : w.self.recordTerminator = some (.literal t))
    (hrecord : w.self.recordSize = r.length + t.length)
    (hbuffer : (w.self.buffer.window w.mem).take r.length = r) (set : Option (List UInt8)) :
    Trims (trimSet set) (Reader.retrim (trimOption set) w (.ok (.line bs))) (w, .ok (.line bs)) ∧
      (Reader.retrim (trimOption set) w (.ok (.line bs))).1 = w.withTrim (trimOption set) := by
  have hno : w.self.recordTerminator ≠ some (.literal []) := by
    rw [hterminator]
    simpa using ht
  obtain ⟨whole, hwhole, hbytes⟩ := buffered_spec hready.within hterminator hrecord
    (hready.record_le hrecord)
  simp only [Reader.retrim, if_neg hno]
  refine ⟨⟨(apply_spec hin set).2, whole, hwhole, ?_⟩, rfl⟩
  exact hbytes.trans (hbuffer.trans hread.symm)

/-- The last record: its size is that of what is returned. -/
theorem trims_last {bs : Span} {r : List UInt8} (hready : Ready sep max number rest w)
    (hin : bs.Within w.mem) (hread : bs.read w.mem = r)
    (hterminator : w.self.recordTerminator = some (.literal []))
    (hrecord : w.self.recordSize = r.length)
    (hbuffer : (w.self.buffer.window w.mem).take r.length = r) (set : Option (List UInt8)) :
    (Trims (trimSet set) (Reader.retrim (trimOption set) w (.ok (.line bs))) (w, .ok (.line bs)) ↔
      trimBytes (trimSet set) r = r) ∧
      (trimBytes (trimSet set) r = r →
        (Reader.retrim (trimOption set) w (.ok (.line bs))).1 = w.withTrim (trimOption set)) := by
  obtain ⟨hin', hread'⟩ := apply_spec hin set
  have hlen := hin'.read_length
  have hnonneg := hin'.size_nonneg
  rw [hread', hread] at hlen
  have hshort : (trimBytes (trimSet set) r).length ≤ r.length :=
    ((List.rdropWhile_prefix _ _).length_le).trans (List.dropWhile_suffix _).length_le
  have hcap := @Ready.record_le _ _ _ _ _ _ hready r.length [] (by simpa using hrecord)
  obtain ⟨whole, hwhole, hbytes⟩ := @buffered_spec R
    { w with self := { w.self with
      trimRecord := trimOption set, recordSize := ((trimOption set).apply w.mem bs).size } }
    hready.within [] (trimBytes (trimSet set) r).length hterminator
    (by
      change ((trimOption set).apply w.mem bs).size = _
      rw [List.length_nil]
      omega)
    (by
      change _ ≤ w.self.buffer.capacity
      omega)
  change whole.read w.mem = (w.self.buffer.window w.mem).take _ at hbytes
  have hfront : whole.read w.mem = r.take (trimBytes (trimSet set) r).length := by
    rw [hbytes, ← hbuffer, List.take_take, hbuffer, Nat.min_eq_left hshort]
  simp only [Reader.retrim, if_pos hterminator]
  refine ⟨⟨?_, ?_⟩, ?_⟩
  · rintro ⟨-, whole', hwhole', hbytes'⟩
    obtain rfl : whole = whole' := by
      have heq := hwhole.symm.trans hwhole'
      simpa using heq
    change whole.read w.mem = bs.read w.mem at hbytes'
    have hlength := congrArg List.length (hfront.symm.trans (hbytes'.trans hread))
    rw [List.length_take] at hlength
    exact trimBytes_of_length (by omega)
  · intro hsame
    refine ⟨hread'.trans (by rw [hread]), whole, hwhole, ?_⟩
    change whole.read w.mem = bs.read w.mem
    rw [hfront, hsame, List.take_length, hread]
  · intro hsame
    rw [Reader.withTrim]
    congr 2
    rw [hsame] at hlen
    omega

/-- The pieces of a list begin with the first one, however it is found. -/
theorem records_cut (hsep : sep ≠ []) {rs : List (List UInt8 × List UInt8)} {r t : List UInt8}
    (hrs : Records sep total rs) (hcut : Cut sep total r t rest) :
    ∃ rs', rs = (r, t) :: rs' ∧ Records sep rest rs' := by
  have hocc {a b : List UInt8} : sep <+: (a ++ sep ++ b).drop a.length := by
    rw [List.append_assoc, List.drop_left]
    exact List.prefix_append _ _
  cases hrs with
  | nil =>
      cases hcut with
      | terminated _ _ heq _ =>
          have hlen := congrArg List.length heq
          have hpos := List.length_pos_iff.mpr hsep
          simp only [List.length_nil, List.length_append] at hlen
          omega
      | last hne _ => exact absurd rfl hne
  | last hne hno =>
      cases hcut with
      | terminated _ _ heq _ =>
          refine absurd ?_ (hno r.length)
          rw [heq]
          exact hocc
      | last _ _ => exact ⟨[], rfl, .nil⟩
  | @cons r₀ rest₀ rs₀ hfirst₀ hrest₀ =>
      cases hcut with
      | last _ hno => exact absurd hocc (hno r₀.length)
      | terminated _ _ heq hfirst =>
          have hlen : r₀.length = r.length := by
            rcases Nat.lt_trichotomy r₀.length r.length with hlt | hsame | hgt
            · exact absurd hocc (hfirst _ hlt)
            · exact hsame
            · refine absurd ?_ (hfirst₀ _ hgt)
              rw [heq]
              exact hocc
          rw [List.append_assoc, List.append_assoc] at heq
          obtain ⟨rfl, htail⟩ := List.append_inj heq hlen
          rw [← List.append_cancel_left htail]
          exact ⟨rs₀, rfl, hrest₀⟩

theorem records_nil (hsep : sep ≠ []) {rs : List (List UInt8 × List UInt8)}
    (hrs : Records sep [] rs) : rs = [] := by
  generalize hxs : ([] : List UInt8) = xs at hrs
  cases hrs with
  | nil => rfl
  | last hne _ => exact absurd hxs.symm hne
  | cons _ _ =>
      have hlen := congrArg List.length hxs
      have hpos := List.length_pos_iff.mpr hsep
      simp only [List.length_nil, List.length_append] at hlen
      omega

theorem Short.mono {limit limit' : Int} {r t : List UInt8} (h : Short limit r t)
    (hle : limit ≤ limit') : Short limit' r t :=
  ⟨Int.le_trans h.1 hle, fun ht => Int.lt_of_lt_of_le (h.2 ht) hle⟩

/-- If no record is too long, the last one is returned, and must be trimmed
already when the stream ends without a separator. -/
def LastTrimmed (limit : Int) (set : List UInt8) (rs : List (List UInt8 × List UInt8)) : Prop :=
  (∀ x ∈ rs, Short limit x.1 x.2) → ∀ r, (r, []) ∈ rs → trimBytes set r = r

section Calls
variable {rs : List (List UInt8 × List UInt8)} {size : Int}

/-- One call, when the records to come are as they must be. -/
theorem trims_call (junk : Nat → Nat → UInt8) (e : Engine R) (h : Ready sep max number total w)
    (hsep : sep ≠ []) (hgrown : size ≤ w.self.buffer.size ∧ w.self.buffer.size ≤ Max.max size max)
    (hrs : Records sep total rs) {set : Option (List UInt8)}
    (hlast : LastTrimmed (Max.max size max) (trimSet set) rs) :
    Trims (trimSet set) (getLine junk e (w.withTrim (trimOption set))) (getLine junk e w) ∧
      (getLine junk e (w.withTrim (trimOption set))).1 =
        (getLine junk e w).1.withTrim (trimOption set) ∧
      ∃ number' total' rs', Ready sep max number' total' (getLine junk e w).1 ∧
        (size ≤ (getLine junk e w).1.self.buffer.size ∧
          (getLine junk e w).1.self.buffer.size ≤ Max.max size max) ∧
        Records sep total' rs' ∧ LastTrimmed (Max.max size max) (trimSet set) rs' := by
  rw [getLine_withTrim h.plain hsep]
  have houtcome := getLine_outcome junk e h hsep hgrown
  generalize getLine junk e w = y at houtcome
  cases houtcome with
  | @record w' bs r t rest hcut hready hin hread hterminator hrecord hbuffer hgrown' hshort =>
      obtain ⟨rs', rfl, hrs'⟩ := records_cut hsep hrs hcut
      have hfits : Short (Max.max size max) r t := hshort.mono hgrown'.2
      have hlast' : LastTrimmed (Max.max size max) (trimSet set) rs' := by
        intro hall r' hr'
        refine hlast ?_ r' (List.mem_cons_of_mem _ hr')
        intro x hx
        rcases List.mem_cons.mp hx with rfl | hx
        · exact hfits
        · exact hall x hx
      by_cases ht : t = []
      · subst ht
        have htrim : trimBytes (trimSet set) r = r := by
          cases hcut with
          | terminated => exact absurd rfl hsep
          | last =>
              refine hlast ?_ _ (List.mem_cons_self ..)
              obtain rfl : rs' = [] := records_nil hsep hrs'
              intro x hx
              rw [List.mem_singleton.mp hx]
              exact hfits
        obtain ⟨hiff, hsame⟩ := trims_last hready hin hread hterminator (by simpa using hrecord)
          hbuffer set
        exact ⟨hiff.mpr htrim, hsame htrim, _, _, rs', hready, hgrown', hrs', hlast'⟩
      · obtain ⟨htrims, hsame⟩ := trims_terminated hready ht hin hread hterminator hrecord hbuffer set
        exact ⟨htrims, hsame, _, _, rs', hready, hgrown', hrs', hlast'⟩
  | eof hready hend hgrown' => exact ⟨rfl, rfl, _, _, rs, hready, hgrown', hrs, hlast⟩
  | msgSize hready hgrown' _ _ => exact ⟨rfl, rfl, _, _, rs, hready, hgrown', hrs, hlast⟩

theorem trims_calls (junk : Nat → Nat → UInt8) (e : Engine R) (h : Ready sep max number total w)
    (hsep : sep ≠ []) (hgrown : size ≤ w.self.buffer.size ∧ w.self.buffer.size ≤ Max.max size max)
    (hrs : Records sep total rs) {set : Option (List UInt8)}
    (hlast : LastTrimmed (Max.max size max) (trimSet set) rs) (n : Nat) :
    Trims (trimSet set) (getLine junk e (getLines junk e n (w.withTrim (trimOption set))).1)
      (getLine junk e (getLines junk e n w).1) := by
  induction n generalizing w number total rs with
  | zero => exact (trims_call junk e h hsep hgrown hrs hlast).1
  | succ n ih =>
      obtain ⟨-, hsame, number', total', rs', hready, hgrown', hrs', hlast'⟩ :=
        trims_call junk e h hsep hgrown hrs hlast
      have hnext := ih hready hgrown' hrs' hlast'
      rw [← hsame] at hnext
      exact hnext

/-- If all calls agree, the last record has been found trimmed. -/
theorem last_of_trims (junk : Nat → Nat → UInt8) (e : Engine R) (hrs : Records sep total rs)
    (h : Ready sep max number total w) (hsep : sep ≠ [])
    (hgrown : size ≤ w.self.buffer.size ∧ w.self.buffer.size ≤ Max.max size max)
    {set : Option (List UInt8)}
    (htrims : ∀ n, Trims (trimSet set)
      (getLine junk e (getLines junk e n (w.withTrim (trimOption set))).1)
      (getLine junk e (getLines junk e n w).1))
    (hshort : ∀ x ∈ rs, Short (Max.max size max) x.1 x.2) :
    ∀ r, (r, []) ∈ rs → trimBytes (trimSet set) r = r := by
  induction hrs generalizing w number with
  | nil => exact nofun
  | @last total hne hno =>
      intro r hr
      obtain ⟨rfl, -⟩ := Prod.mk.inj (List.mem_singleton.mp hr)
      have hfirst := htrims 0
      change Trims _ (getLine junk e (w.withTrim _)) (getLine junk e w) at hfirst
      rw [getLine_withTrim h.plain hsep] at hfirst
      have houtcome := getLine_outcome junk e h hsep hgrown
      generalize getLine junk e w = y at houtcome hfirst
      cases houtcome with
      | @record w' bs r t rest hcut hready hin hread hterminator hrecord hbuffer hgrown' hfits =>
          obtain ⟨rs', heq, -⟩ := records_cut hsep (.last hne hno) hcut
          obtain ⟨hhead, -⟩ := List.cons.inj heq
          obtain ⟨rfl, rfl⟩ := Prod.mk.inj hhead
          exact (trims_last hready hin hread hterminator (by simpa using hrecord) hbuffer set).1.mp
            hfirst
      | eof _ hend _ => exact absurd hend hne
      | msgSize _ hgrown' hlimit hlong =>
          exact absurd ((hshort _ (List.mem_singleton_self _)).mono (by omega))
            (hlong _ _ _ (.last hne hno))
  | @cons r₀ rest₀ rs₀ hfirst₀ hrest₀ ih =>
      intro r hr
      have hmem : (r, []) ∈ rs₀ := by
        rcases List.mem_cons.mp hr with heq | hr
        · exact absurd (Prod.mk.inj heq).2.symm hsep
        · exact hr
      have hcut₀ : Cut sep (r₀ ++ sep ++ rest₀) r₀ sep rest₀ := .terminated _ _ rfl hfirst₀
      have hall : Records sep (r₀ ++ sep ++ rest₀) ((r₀, sep) :: rs₀) := .cons hfirst₀ hrest₀
      have hcall := @getLine_withTrim _ junk e _ _ _ h.plain hsep (trimOption set)
      have houtcome := getLine_outcome junk e h hsep hgrown
      have hnext : ∀ n, Trims (trimSet set)
          (getLine junk e (getLines junk e n (getLine junk e (w.withTrim (trimOption set))).1).1)
          (getLine junk e (getLines junk e n (getLine junk e w).1).1) := fun n => htrims (n + 1)
      rw [hcall] at hnext
      generalize getLine junk e w = y at houtcome hnext
      cases houtcome with
      | @record w' bs r₁ t rest hcut hready hin hread hterminator hrecord hbuffer hgrown' hfits =>
          obtain ⟨rs', heq, hrs'⟩ := records_cut hsep hall hcut
          obtain ⟨hhead, rfl⟩ := List.cons.inj heq
          obtain ⟨rfl, rfl⟩ := Prod.mk.inj hhead
          have hrest : rest = rest₀ := hrs'.flatten.symm.trans hrest₀.flatten
          obtain ⟨-, hsame⟩ := trims_terminated hready hsep hin hread hterminator hrecord hbuffer set
          simp only [hsame] at hnext
          exact ih (hrest ▸ hready) hgrown' hnext (fun x hx => hshort x (List.mem_cons_of_mem _ hx))
            r hmem
      | eof _ hend _ =>
          have hpos := List.length_pos_iff.mpr hsep
          have hlen := congrArg List.length hend
          simp only [List.length_append, List.length_nil] at hlen
          omega
      | msgSize _ hgrown' hlimit hlong =>
          exact absurd ((hshort _ (List.mem_cons_self ..)).mono (by omega)) (hlong _ _ _ hcut₀)

end Calls

/-- A scanner that trims agrees with one that does not, call by call, exactly if
it does not get to return a last record that trimming would change. -/
theorem trimmed_records_iff (junk : Nat → Nat → UInt8) (e : Engine R) (m : Memory) (cs : List Chunk)
    (hcs : ∀ code, .fail code ∉ cs) {sep : List UInt8} (hsep : sep ≠ [])
    (set : Option (List UInt8)) {size : Int} (hsize : 0 < size) (max : Int) :
    ∃ m' scanner, scannerNew junk m ⟨some (.string sep), .off, none, none, some size, some max⟩ =
        .ok (m', scanner) ∧
      scannerNew junk m ⟨some (.string sep), trimOption set, none, none, some size, some max⟩ =
        .ok (m', { scanner with trimRecord := trimOption set }) ∧
      ((∀ n, Trims (trimSet set)
          (getLine junk e (getLines junk e n
            ⟨m', cs, { scanner with trimRecord := trimOption set }⟩).1)
          (getLine junk e (getLines junk e n ⟨m', cs, scanner⟩).1)) ↔
        LastTrimmed (Max.max size max) (trimSet set) (split sep (streamBytes cs))) := by
  obtain ⟨m', scanner, hnew, hbuffer, hready⟩ := ready_new (R := R) junk m hcs sep hsize max
  have hgrown : size ≤ scanner.buffer.size ∧ scanner.buffer.size ≤ Max.max size max := by omega
  have hrs := split_spec hsep (streamBytes cs)
  refine ⟨m', scanner, hnew, ?_, ?_⟩
  · have hspan : newSpan size size = .ok (.allocate size size) := by
      rw [newSpan, if_neg (by omega), if_neg (by omega)]
    simp only [scannerNew, Option.getD_some, hspan, bind, Except.bind] at hnew ⊢
    cases hnew
    rfl
  · constructor
    · exact fun htrims hshort => last_of_trims junk e hrs hready hsep hgrown htrims hshort
    · exact fun hlast n => trims_calls junk e hready hsep hgrown hrs hlast n

end

/-- `"a\n b"` and `"a\n b "`, in chunks that cut the last record in two. -/
def paddedChunks (last : List UInt8) : List Chunk := [.data 97 [10, 32], .data 98 last]

theorem trimmed_records_iff_padded :
    ∃ m scanner, scannerNew (fun _ _ => 0) [] ⟨some (.string [10]), .off, none, none, some 2, some 8⟩ =
        .ok (m, scanner) ∧
      scannerNew (fun _ _ => 0) [] ⟨some (.string [10]), .on, none, none, some 2, some 8⟩ =
        .ok (m, { scanner with trimRecord := .on }) ∧
      ((∀ n, Trims lws
          (getLine (fun _ _ => 0) noEngine (getLines (fun _ _ => 0) noEngine n
            ⟨m, paddedChunks [], { scanner with trimRecord := .on }⟩).1)
          (getLine (fun _ _ => 0) noEngine (getLines (fun _ _ => 0) noEngine n
            ⟨m, paddedChunks [], scanner⟩).1)) ↔
        LastTrimmed 8 lws (split [10] (streamBytes (paddedChunks [])))) :=
  trimmed_records_iff (fun _ _ => 0) noEngine [] (paddedChunks []) (by simp [paddedChunks])
    (show [10] ≠ [] by simp) none (show (0 : Int) < 2 by decide) 8

/-- As many bytes as trimming took off the last record stay in the buffer and are
returned as further records; the end of the stream is never reported. -/
theorem last_record_is_returned_again :
    ∃ m scanner, scannerNew (fun _ _ => 0) [] ⟨some (.string [10]), .on, none, none, some 8, some 8⟩ =
        .ok (m, scanner) ∧
      split [10] (streamBytes (paddedChunks [32])) = [([97], [10]), ([32, 98, 32], [])] ∧
      (getLines (fun _ _ => 0) noEngine 5 ⟨m, paddedChunks [32], scanner⟩).2 =
        [some ([97], [10], 1), some ([98], [], 2), some ([98], [], 3), some ([], [], 4), some ([], [], 5)] ∧
      ((getLines (fun _ _ => 0) noEngine 2 ⟨m, paddedChunks [32], scanner⟩).1.self.bufferedLine.map
          fun r => r.map (Span.read (getLines (fun _ _ => 0) noEngine 2
            ⟨m, paddedChunks [32], scanner⟩).1.mem)) = some (.ok [32]) :=
  ⟨_, _, rfl, by decide, by decide, by decide⟩

end Emilua.Bytes
