import Emilua.Lib.Split
import Emilua.Bytes.Calls

/-!
The records that successive calls of `get_line` return, for a separator that is
a string and without trimming or fields: those the bytes of the stream are cut
into, however the stream gives them.
-/
namespace Emilua.Bytes
open Split

/-- The scanner looks for `sep` and returns whole records. -/
structure Plain {R : Type} (sep : List UInt8) (max : Int) (scanner : Scanner R) : Prop where
  separator : scanner.recordSeparator = .string sep
  trim : scanner.trimRecord = .off
  fieldSeparator : scanner.fieldSeparator = none
  fieldPattern : scanner.fieldPattern = none
  max : scanner.maxRecordSize = max

/-- Between two calls: `rest` has not been returned, and `number` records have. -/
structure Ready {R : Type} (sep : List UInt8) (max number : Int) (rest : List UInt8) (w : Reader R) : Prop where
  plain : Plain sep max w.self
  number : w.self.recordNumber = number
  within : w.self.buffer.Within w.mem
  pos : 0 < w.self.buffer.size
  recordSize : 0 ≤ w.self.recordSize ∧ w.self.recordSize ≤ w.self.bufferUsed
  used : w.self.bufferUsed ≤ w.self.buffer.size
  reads : ∀ code, .fail code ∉ w.stream
  rest : ((w.self.buffer.window w.mem).take w.self.bufferUsed.toNat).drop w.self.recordSize.toNat ++
    streamBytes w.stream = rest

/-- In the loop of `get_line`: `wnd` has what has been read of `rest`. -/
structure Looking {R : Type} (sep : List UInt8) (max number : Int) (rest : List UInt8) (w : Reader R) (wnd : Span) : Prop
    where
  plain : Plain sep max w.self
  number : w.self.recordNumber = number
  within : w.self.buffer.Within w.mem
  pos : 0 < w.self.buffer.size
  recordSize : w.self.recordSize = 0
  used : w.self.bufferUsed ≤ w.self.buffer.size
  reads : ∀ code, .fail code ∉ w.stream
  wnd_within : wnd.Within w.mem
  wnd_size : wnd.size = w.self.bufferUsed
  wnd_read : wnd.read w.mem = (w.self.buffer.window w.mem).take w.self.bufferUsed.toNat
  rest : wnd.read w.mem ++ streamBytes w.stream = rest

/-- The first record of `total`, its terminator and what follows. -/
inductive Cut (sep total : List UInt8) : List UInt8 → List UInt8 → List UInt8 → Prop
  | terminated (r rest : List UInt8) (heq : total = r ++ sep ++ rest) (hfirst : ∀ i < r.length, ¬ sep <+: total.drop i) :
      Cut sep total r sep rest
  | last (hne : total ≠ []) (hno : ∀ i, ¬ sep <+: total.drop i) : Cut sep total total [] []

/-- The record is not too long for the scanner. -/
def Short (max : Int) (r t : List UInt8) : Prop := (r.length + t.length : Nat) ≤ max ∧ (t = [] → r.length < max)

/-- The record in front of the first occurrence in what has been read. -/
theorem cut_first {sep xs : List UInt8} (hsep : sep ≠ []) {i : Nat} (hi : firstAt sep xs = some i) (ys : List UInt8) :
    Cut sep (xs ++ ys) (xs.take i) sep (xs.drop (i + sep.length) ++ ys) := by
  obtain ⟨hocc, hbefore⟩ := firstAt_some hi
  have hle := occurs_length hsep hocc
  refine .terminated _ _ ?_ fun j hj hfirst => ?_
  · obtain ⟨rest, hrest⟩ := hocc
    rw [← List.drop_drop, ← hrest, List.drop_left, List.append_assoc, ← List.append_assoc sep,
      hrest, ← List.append_assoc, List.take_append_drop]
  · rw [List.length_take] at hj
    exact hbefore j (by omega) (occurs_of_append _ hfirst (by omega))

section
variable {R : Type} {junk : Nat → Nat → UInt8} {e : Engine R} {sep rest total r t : List UInt8} {max number : Int}
  {w : Reader R} {wnd : Span}

/-- The fields that `get_line` changes are not looked at. -/
theorem Plain.update {scanner : Scanner R} (h : Plain sep max scanner) (buffer : Span) (used size n : Int)
    (terminator : Option View) : Plain sep max { scanner with
      buffer := buffer, bufferUsed := used, recordSize := size, recordNumber := n, recordTerminator := terminator } :=
  ⟨h.separator, h.trim, h.fieldSeparator, h.fieldPattern, h.max⟩

theorem Looking.filled (h : Looking sep max number rest w wnd) : w.Filled rest wnd :=
  ⟨h.within, h.recordSize, h.used, h.wnd_within, h.wnd_size, h.wnd_read, h.rest⟩

theorem Reader.Filled.looking (h : w.Filled rest wnd) (hplain : Plain sep max w.self) (hnumber : w.self.recordNumber = number)
    (hpos : 0 < w.self.buffer.size) (hreads : ∀ code, .fail code ∉ w.stream) : Looking sep max number rest w wnd :=
  ⟨hplain, hnumber, h.within, hpos, h.recordSize, h.used, hreads, h.wnd_within, h.wnd_size, h.wnd_read, h.rest⟩

theorem Ready.sound (h : Ready sep max number rest w) : w.Sound := ⟨h.within, h.recordSize, h.used⟩

theorem find_eq_firstAt (s pat : List UInt8) : find s pat 0 = firstAt pat s := by
  unfold find firstAt firstIndex
  congr 1

theorem search_sep {m : Memory} (h : wnd.Within m) (hsep : sep ≠ []) :
    wnd.searchFrom find m (.literal sep) 1 = .ok ((firstAt sep (wnd.read m)).map fun i : Nat => (i : Int) + 1) := by
  have hlen := h.read_length
  have hnonneg := h.size_nonneg
  unfold Span.searchFrom
  rw [if_neg (by omega)]
  split
  · have hnil : wnd.read m = [] := List.eq_nil_of_length_eq_zero (by omega)
    have hnone : firstAt sep ([] : List UInt8) = none := by
      cases hf : firstAt sep ([] : List UInt8) with
      | none => rfl
      | some i =>
          have hle := occurs_length hsep (firstAt_some hf).1
          have hpos := List.length_pos_iff.mpr hsep
          rw [List.length_nil] at hle
          omega
    rw [hnil, hnone]
    rfl
  · rw [View.read, Int.sub_self, Int.toNat_zero, find_eq_firstAt]

/-- The loop returns the record in front of the separator. -/
theorem loop_found (junk : Nat → Nat → UInt8) (e : Engine R) (h : Looking sep max number total w wnd) (hsep : sep ≠ []) {i : Nat} (fuel : Nat)
    (hi : firstAt sep (wnd.read w.mem) = some i) :
    ∃ line, w.loop junk e (fuel + 1) wnd = ({ w with self := { w.self with
        recordTerminator := some (.literal sep), recordSize := i + sep.length, recordNumber := w.self.recordNumber + 1 } },
        .ok (.line line)) ∧ line.Within w.mem ∧ line.read w.mem = (wnd.read w.mem).take i := by
  have hlen := h.wnd_within.read_length
  have hnonneg := h.wnd_within.size_nonneg
  have hcap := h.wnd_within.size_le
  have hle := occurs_length hsep (firstAt_some hi).1
  obtain ⟨line, hslice, hin, hsize, -, hwindow, -⟩ := slice_spec h.wnd_within 1 i le_rfl
    (by omega) (by omega)
  have hread : line.read w.mem = (wnd.read w.mem).take i := by
    rw [hin.read_eq, hwindow, h.wnd_within.read_eq, List.take_take, hsize]
    rw [show (1 - 1 : Int).toNat = 0 from rfl, List.drop_zero]
    congr 1
    omega
  refine ⟨line, ?_, hin, hread⟩
  have hrecord : w.self.findRecord e w.mem wnd = .ok (some (line, .literal sep, (i : Int) + sep.length)) := by
    simp only [Scanner.findRecord, h.plain.separator, search_sep h.wnd_within hsep, hi, Option.map_some, bind, Except.bind]
    rw [Int.add_sub_cancel, hslice]
  rw [Reader.loop, hrecord]
  simp only [Reader.raise, Reader.found, Scanner.fields, h.plain.trim, Trim.apply, h.plain.fieldSeparator,
    h.plain.fieldPattern]

theorem findRecord_none (h : Looking sep max number total w wnd) (hsep : sep ≠ [])
    (hnone : firstAt sep (wnd.read w.mem) = none) : w.self.findRecord e w.mem wnd = .ok none := by
  simp only [Scanner.findRecord, h.plain.separator, search_sep h.wnd_within hsep, hnone, Option.map_none, bind, Except.bind]

/-- Room is made in a buffer that is full. -/
theorem grow_spec (junk : Nat → Nat → UInt8) (h : Looking sep max number total w wnd)
    (hmax : w.self.bufferUsed = w.self.buffer.size → w.self.buffer.size < max) :
    ∃ w', w.grow junk = .ok w' ∧ Looking sep max number total w' wnd ∧ w'.self.bufferUsed < w'.self.buffer.size ∧
      w'.stream = w.stream := by
  have hpos := h.pos
  have hlimit := h.plain.max
  rcases h.filled.grow_spec junk with ⟨-, hfull, hle⟩ | ⟨m, buffer, hgrow, -, hfilled, -, hroom⟩
  · have hless := hmax hfull.symm
    omega
  · have hused := h.filled.used_nonneg
    have hbuffer : 0 < buffer.size := by omega
    exact ⟨_, hgrow, hfilled.looking (h.plain.update ..) h.number hbuffer h.reads, hroom, rfl⟩

/-- A chunk is read behind what is in the buffer. -/
theorem read_spec (h : Looking sep max number total w wnd) (hroom : w.self.bufferUsed < w.self.buffer.size) {b : UInt8}
    {xs : List UInt8} {cs : List Chunk} (hstream : w.stream = .data b xs :: cs) {target : Span}
    (htarget : w.self.buffer.slice (1 + w.self.bufferUsed) w.self.buffer.size = .ok target) :
    ∃ m stream, ∃ n : Nat, readSome w.mem target w.stream = (m, stream, .ok n) ∧ 0 < n ∧
      (streamBytes stream).length + n = (streamBytes w.stream).length ∧
      ∃ wnd', w.self.buffer.slice 1 (w.self.bufferUsed + n) = .ok wnd' ∧
        Looking sep max number total ⟨m, stream, { w.self with bufferUsed := w.self.bufferUsed + n }⟩ wnd' := by
  obtain ⟨m, n, hread, hn, hlength, -, wnd', hslice, hfilled⟩ := h.filled.read_spec hroom hstream htarget
  refine ⟨m, _, n, hread, hn, hlength, wnd', hslice, hfilled.looking (h.plain.update ..) h.number h.pos ?_⟩
  intro code hmem
  have hreads := h.reads code
  rw [hstream] at hreads
  cases hdrop : (b :: xs).drop n with
  | nil =>
      rw [hdrop] at hmem
      exact hreads (List.mem_cons_of_mem _ hmem)
  | cons c cs' =>
      rw [hdrop] at hmem
      rcases List.mem_cons.mp hmem with hno | hold
      · cases hno
      · exact hreads (List.mem_cons_of_mem _ hold)

/-- A buffer that is full and has no record is smaller than `max_record_size`. -/
theorem full_short (h : Looking sep max number total w wnd) (hsep : sep ≠ [])
    (hnone : firstAt sep (wnd.read w.mem) = none) (hcut : Cut sep total r t rest) (hshort : Short max r t) :
    w.self.bufferUsed < max := by
  have hlen := h.wnd_within.read_length
  have hnonneg := h.wnd_within.size_nonneg
  have hsize := h.wnd_size
  obtain ⟨hfits, hlast⟩ := hshort
  cases hcut with
  | terminated _ _ heq _ =>
      have hocc : sep <+: total.drop r.length := by
        rw [heq, List.append_assoc, List.drop_left]
        exact List.prefix_append _ _
      have hshort : (wnd.read w.mem).length < r.length + sep.length := by
        by_contra hlong
        refine firstAt_none hsep hnone r.length (occurs_of_append (streamBytes w.stream) ?_ (by omega))
        rw [h.rest]
        exact hocc
      omega
  | last =>
      have hle : (wnd.read w.mem).length ≤ total.length := by
        rw [← h.rest, List.length_append]
        exact Nat.le_add_right _ _
      have hlt := hlast rfl
      omega

/-- What has been found is the first record. -/
theorem cut_found (h : Looking sep max number total w wnd) (hsep : sep ≠ []) {i : Nat}
    (hi : firstAt sep (wnd.read w.mem) = some i) (hcut : Cut sep total r t rest) :
    t = sep ∧ r = (wnd.read w.mem).take i ∧ rest = (wnd.read w.mem).drop (i + sep.length) ++ streamBytes w.stream := by
  have hle := occurs_length hsep (firstAt_some hi).1
  cases hcut with
  | terminated _ _ heq hfirst =>
      have hocc : sep <+: total.drop r.length := by
        rw [heq, List.append_assoc, List.drop_left]
        exact List.prefix_append _ _
      have hir : i = r.length := by
        rw [← h.rest] at hocc hfirst
        exact firstAt_eq hi hsep hocc hfirst
      have htotal : wnd.read w.mem ++ streamBytes w.stream = r ++ (sep ++ rest) := by
        rw [h.rest, heq, List.append_assoc]
      refine ⟨rfl, ?_, ?_⟩
      · rw [← List.take_append_of_le_length (show i ≤ (wnd.read w.mem).length by omega), htotal, hir, List.take_left]
      · rw [← List.drop_append_of_le_length hle, htotal, ← List.drop_drop, hir, List.drop_left, List.drop_left]
  | last hne hno =>
      have hocc := occurs_append (streamBytes w.stream) (firstAt_some hi).1 hsep
      rw [h.rest] at hocc
      exact absurd hocc (hno i)

/-- After a record with a terminator. -/
theorem Looking.ready_found (h : Looking sep max number total w wnd) (hsep : sep ≠ []) {i : Nat}
    (hi : firstAt sep (wnd.read w.mem) = some i) :
    Ready sep max (number + 1) ((wnd.read w.mem).drop (i + sep.length) ++ streamBytes w.stream)
      { w with self := { w.self with
        recordTerminator := some (.literal sep), recordSize := i + sep.length,
        recordNumber := w.self.recordNumber + 1 } } := by
  have hle := occurs_length hsep (firstAt_some hi).1
  have hlen := h.wnd_within.read_length
  have hsize := h.wnd_size
  have hnonneg := h.wnd_within.size_nonneg
  refine ⟨h.plain.update .., congrArg (· + 1) h.number, h.within, h.pos, ?_, h.used, h.reads, ?_⟩
  · change (0 : Int) ≤ i + sep.length ∧ (i : Int) + sep.length ≤ w.self.bufferUsed
    omega
  · change ((w.self.buffer.window w.mem).take w.self.bufferUsed.toNat).drop ((i : Int) + sep.length).toNat ++
      streamBytes w.stream = _
    rw [← h.wnd_read]
    congr 2

/-- After a record that the stream has ended. -/
theorem Looking.ready_last (h : Looking sep max number total w wnd) :
    Ready sep max (number + 1) [] { w with stream := [], self := { w.self with
      recordTerminator := some (.literal []), recordSize := wnd.size,
      recordNumber := w.self.recordNumber + 1 } } := by
  have hsize := h.wnd_size
  have hnonneg := h.wnd_within.size_nonneg
  refine ⟨h.plain.update .., congrArg (· + 1) h.number, h.within, h.pos, ?_, h.used, nofun, ?_⟩
  · change 0 ≤ wnd.size ∧ wnd.size ≤ w.self.bufferUsed
    omega
  · change ((w.self.buffer.window w.mem).take w.self.bufferUsed.toNat).drop wnd.size.toNat ++ [] = []
    rw [List.append_nil, hsize, List.drop_eq_nil_of_le (List.length_take_le _ _)]

theorem loop_returns (h : Looking sep max number total w wnd) (hsep : sep ≠ []) (hcut : Cut sep total r t rest)
    (hshort : Short max r t) {fuel : Nat} (hfuel : (streamBytes w.stream).length < fuel) :
    ∃ w' line, w.loop junk e fuel wnd = (w', .ok (.line line)) ∧ line.read w'.mem = r ∧
      w'.self.recordTerminator = some (.literal t) ∧ Ready sep max (number + 1) rest w' := by
  induction fuel generalizing w wnd with
  | zero => exact absurd hfuel (Nat.not_lt_zero _)
  | succ fuel ih =>
      cases hi : firstAt sep (wnd.read w.mem) with
      | some i =>
          obtain ⟨rfl, rfl, rfl⟩ := cut_found h hsep hi hcut
          obtain ⟨line, hloop, -, hline⟩ := loop_found junk e h hsep fuel hi
          exact ⟨_, line, hloop, hline, rfl, h.ready_found hsep hi⟩
      | none =>
          have hmax := full_short h hsep hi hcut hshort
          obtain ⟨w₁, hgrow, h₁, hroom, hstream⟩ := grow_spec junk h fun hfull => hfull ▸ hmax
          have hused : 0 ≤ w₁.self.bufferUsed := h₁.wnd_size ▸ h₁.wnd_within.size_nonneg
          obtain ⟨target, htarget, -⟩ := slice_spec h₁.within (1 + w₁.self.bufferUsed)
            w₁.self.buffer.size (by omega) (by omega) h₁.within.size_le
          have hrecord := findRecord_none (e := e) h hsep hi
          cases hs : w₁.stream with
          | nil =>
              -- the stream has ended, and what has been read is the last record
              have hread : wnd.read w₁.mem = total := by
                have hrest := h₁.rest
                rwa [hs, streamBytes, List.append_nil] at hrest
              have hsame : wnd.read w.mem = total := by
                have hrest := h.rest
                rwa [← hstream, hs, streamBytes, List.append_nil] at hrest
              rw [hsame] at hi
              cases hcut with
              | terminated _ _ heq _ =>
                  refine absurd ?_ (firstAt_none hsep hi r.length)
                  rw [heq, List.append_assoc, List.drop_left]
                  exact List.prefix_append _ _
              | last hne hno =>
                  have hsize : wnd.size ≠ 0 := by
                    intro hzero
                    have hlen := h.wnd_within.read_length
                    rw [hsame, hzero] at hlen
                    exact hne (List.eq_nil_of_length_eq_zero hlen)
                  refine ⟨{ w₁ with stream := [], self := { w₁.self with
                    recordTerminator := some (.literal []), recordSize := wnd.size,
                    recordNumber := w₁.self.recordNumber + 1 } }, wnd, ?_, hread, rfl, h₁.ready_last⟩
                  rw [Reader.loop, hrecord]
                  simp only [Reader.raise, hgrow, htarget, hs, readSome, ne_eq, not_true_eq_false, hsize, or_self,
                    if_false, Reader.last, h₁.plain.trim, Trim.apply, h₁.plain.separator, Scanner.lastFields,
                    h₁.plain.fieldSeparator, h₁.plain.fieldPattern]
          | cons c cs =>
              cases c with
              | fail code =>
                  refine absurd ?_ (h₁.reads code)
                  rw [hs]
                  exact List.mem_cons_self
              | data b xs =>
                  obtain ⟨m, stream, n, hsome, hn, hlength, wnd', hwnd', h'⟩ := read_spec h₁ hroom hs htarget
                  have hloop : w.loop junk e (fuel + 1) wnd =
                      (⟨m, stream, { w₁.self with bufferUsed := w₁.self.bufferUsed + n }⟩ : Reader R).loop junk e fuel
                        wnd' := by
                    rw [Reader.loop, hrecord]
                    simp only [Reader.raise, hgrow, htarget, hsome, hwnd']
                  rw [hloop]
                  refine ih h' ?_
                  change (streamBytes stream).length < fuel
                  rw [hstream] at hlength
                  omega

/-- What the last call has returned is dropped before the loop. -/
theorem getLine_loop (junk : Nat → Nat → UInt8) (e : Engine R) (h : Ready sep max number rest w) :
    ∃ w₁ wnd, getLine junk e w = w₁.loop junk e ((streamBytes w₁.stream).length + 1) wnd ∧
      Looking sep max number rest w₁ wnd ∧ w₁.self.buffer = w.self.buffer := by
  obtain ⟨m, wnd, used, hstart, -, hfilled⟩ := Reader.start_spec h.sound
  have hrest : w.ahead = rest := h.rest
  rw [hrest] at hfilled
  have hcall := Reader.getLine_start junk e hstart rfl
  exact ⟨_, wnd, hcall, hfilled.looking (h.plain.update ..) h.number h.pos h.reads, rfl⟩

theorem streamBytes_nil {cs : List Chunk} (hcs : ∀ code, .fail code ∉ cs) (h : streamBytes cs = []) : cs = [] := by
  cases cs with
  | nil => rfl
  | cons c cs =>
      cases c with
      | data b bs => cases h
      | fail code => exact absurd List.mem_cons_self (hcs code)

theorem loop_eof (h : Looking sep max number [] w wnd) (hsep : sep ≠ []) (fuel : Nat) :
    (w.loop junk e (fuel + 1) wnd).2 = .error .eof := by
  obtain ⟨hread, hbytes⟩ := List.append_eq_nil_iff.mp h.rest
  have hlen := h.wnd_within.read_length
  have hnonneg := h.wnd_within.size_nonneg
  have hpos := h.pos
  have hsize := h.wnd_size
  rw [hread, List.length_nil] at hlen
  have hnone : firstAt sep (wnd.read w.mem) = none := by
    cases hi : firstAt sep (wnd.read w.mem) with
    | none => rfl
    | some i =>
        have hle := occurs_length hsep (firstAt_some hi).1
        have hpos := List.length_pos_iff.mpr hsep
        rw [hread, List.length_nil] at hle
        omega
  obtain ⟨target, htarget, -⟩ := slice_spec h.within (1 + w.self.bufferUsed)
    w.self.buffer.size (by omega) (by omega) h.within.size_le
  have hgrow : w.grow junk = .ok w := if_neg (by omega)
  have hzero : wnd.size = 0 := by omega
  rw [Reader.loop, findRecord_none h hsep hnone]
  simp only [Reader.raise, hgrow, htarget, streamBytes_nil h.reads hbytes, readSome, hzero, or_true, if_true,
    ReadError.raised]

/-- A call that has a record to return. -/
theorem getLine_returns (h : Ready sep max number total w) (hsep : sep ≠ []) (hcut : Cut sep total r t rest)
    (hshort : Short max r t) :
    ∃ w' line, getLine junk e w = (w', .ok (.line line)) ∧ line.read w'.mem = r ∧
      w'.self.recordTerminator = some (.literal t) ∧ Ready sep max (number + 1) rest w' := by
  obtain ⟨w₁, wnd, hcall, hlooking, -⟩ := getLine_loop junk e h
  rw [hcall]
  exact loop_returns hlooking hsep hcut hshort (Nat.lt_succ_self _)

theorem getLine_eof (h : Ready sep max number [] w) (hsep : sep ≠ []) : (getLine junk e w).2 = .error .eof := by
  obtain ⟨w₁, wnd, hcall, hlooking, -⟩ := getLine_loop junk e h
  rw [hcall]
  exact loop_eof hlooking hsep _

/-- A whole record, its terminator and its number, when it is returned. -/
def Reader.observe (w : Reader R) : Except ScanError Record → Option (List UInt8 × List UInt8 × Int)
  | .ok (.line bs) =>
      some (bs.read w.mem, (w.self.recordTerminator.map (View.read w.mem)).getD [], w.self.recordNumber)
  | _ => none

/-- What `n` calls of `get_line` return. -/
def getLines (junk : Nat → Nat → UInt8) (e : Engine R) :
    Nat → Reader R → Reader R × List (Option (List UInt8 × List UInt8 × Int))
  | 0, w => (w, [])
  | n + 1, w =>
      let (w', r) := getLine junk e w
      let (w'', rs) := getLines junk e n w'
      (w'', w'.observe r :: rs)

theorem getLines_returns (junk : Nat → Nat → UInt8) (e : Engine R) {rs : List (List UInt8 × List UInt8)} (hrs : Records sep total rs)
    (h : Ready sep max number total w) (hsep : sep ≠ []) (hshort : ∀ x ∈ rs, Short max x.1 x.2) :
    (getLines junk e rs.length w).2 = rs.mapIdx (fun i x => some (x.1, x.2, number + i + 1)) ∧
      Ready sep max (number + rs.length) [] (getLines junk e rs.length w).1 := by
  have hone : ∀ {total r t rest : List UInt8} {number : Int} {w : Reader R}, Ready sep max number total w →
      Cut sep total r t rest → Short max r t → ∃ w' line, getLine junk e w = (w', .ok (.line line)) ∧
        w'.observe (.ok (.line line)) = some (r, t, number + 1) ∧ Ready sep max (number + 1) rest w' := by
    intro total r t rest number w h hcut hshort
    obtain ⟨w', line, hcall, hread, hterm, h'⟩ := getLine_returns h hsep hcut hshort
    refine ⟨w', line, hcall, ?_, h'⟩
    simp only [Reader.observe, hread, hterm, h'.number, Option.map_some, Option.getD_some, View.read]
  induction hrs generalizing number w with
  | nil =>
      refine ⟨rfl, ?_⟩
      rw [List.length_nil, Int.natCast_zero, Int.add_zero]
      exact h
  | last hne hno =>
      obtain ⟨w', line, hcall, hobs, h'⟩ := hone h (.last hne hno) (hshort _ List.mem_cons_self)
      simp only [List.length_singleton, getLines, hcall, hobs]
      exact ⟨by simp, by simpa using h'⟩
  | cons hfirst hrest ih =>
      obtain ⟨w', line, hcall, hobs, h'⟩ := hone h (.terminated _ _ rfl hfirst) (hshort _ List.mem_cons_self)
      obtain ⟨hlines, hend⟩ := ih h' fun x hx => hshort x (List.mem_cons_of_mem _ hx)
      simp only [List.length_cons, getLines, hcall, hobs, hlines]
      refine ⟨?_, ?_⟩
      · rw [List.mapIdx_cons, Int.natCast_zero, Int.add_zero]
        congr 2
        funext i x
        have hnumber : number + 1 + (i : Int) = number + ((i + 1 : Nat) : Int) := by omega
        rw [hnumber]
      · have hnumber : ∀ n : Nat, number + ((n + 1 : Nat) : Int) = number + 1 + n := by omega
        rw [hnumber]
        exact hend

/-- A new scanner has returned nothing. -/
theorem ready_new (junk : Nat → Nat → UInt8) (m : Memory) {cs : List Chunk} (hcs : ∀ code, .fail code ∉ cs)
    (sep : List UInt8) {size : Int} (hsize : 0 < size) (max : Int) :
    ∃ m' scanner, scannerNew (R := R) junk m ⟨some (.string sep), .off, none, none, some size, some max⟩ = .ok (m', scanner) ∧
      scanner.buffer.size = size ∧ Ready sep max 0 (streamBytes cs) ⟨m', cs, scanner⟩ := by
  have hnew : newSpan size size = .ok (.allocate size size) := by
    rw [newSpan, if_neg (by omega), if_neg (by omega)]
  have hcall : scannerNew (R := R) junk m ⟨some (.string sep), .off, none, none, some size, some max⟩ =
      .ok (((Construct.allocate size size).run junk m).1, ⟨.string sep, .off, none, none, max,
        ((Construct.allocate size size).run junk m).2, 0, 0, 0, none⟩) := by
    simp only [scannerNew, Option.getD_some, hnew, bind, Except.bind]
  exact ⟨_, _, hcall, rfl, ⟨rfl, rfl, rfl, rfl, rfl⟩, rfl, within_allocate _ junk (by omega) le_rfl, hsize, ⟨le_rfl, le_rfl⟩,
    Int.le_of_lt hsize, hcs, rfl⟩

/-- Successive calls of `get_line` return the records the stream is split into,
each with its terminator and its number, and then raise eof. -/
theorem get_line_splits (junk : Nat → Nat → UInt8) (e : Engine R) (m : Memory) (cs : List Chunk)
    (hcs : ∀ code, .fail code ∉ cs) {sep : List UInt8} (hsep : sep ≠ []) {size max : Int} (hsize : 0 < size)
    (hshort : ∀ x ∈ split sep (streamBytes cs), Short max x.1 x.2) :
    ∃ m' scanner, scannerNew junk m ⟨some (.string sep), .off, none, none, some size, some max⟩ = .ok (m', scanner) ∧
      (getLines junk e (split sep (streamBytes cs)).length ⟨m', cs, scanner⟩).2 =
        (split sep (streamBytes cs)).mapIdx (fun i x => some (x.1, x.2, (i : Int) + 1)) ∧
      (getLine junk e (getLines junk e (split sep (streamBytes cs)).length ⟨m', cs, scanner⟩).1).2 = .error .eof ∧
      Records sep (streamBytes cs) (split sep (streamBytes cs)) ∧
      (split sep (streamBytes cs)).flatMap (fun x => x.1 ++ x.2) = streamBytes cs := by
  obtain ⟨m', scanner, hnew, -, hready⟩ := ready_new (R := R) junk m hcs sep hsize max
  have hrs := split_spec hsep (streamBytes cs)
  obtain ⟨hlines, hend⟩ := getLines_returns junk e hrs hready hsep hshort
  simp only [Int.zero_add] at hlines
  exact ⟨m', scanner, hnew, hlines, getLine_eof hend hsep, hrs, hrs.flatten⟩

end

/-- An engine that is never asked. -/
def noEngine : Engine Unit where
  markCount _ := 0
  fullMatch _ _ _ := none
  search _ _ _ _ := none
  tokens _ _ := []
  search_from := nofun
  search_notNull := nofun

/-- `"ab\r\n\r\nc"`, read through a buffer of one byte in chunks that cut a
separator in two. -/
def crlfChunks : List Chunk := [.data 97 [98, 13], .data 10 [], .data 13 [10, 99]]

theorem get_line_splits_crlf :
    ∃ m scanner, scannerNew (fun _ _ => 0) [] ⟨some (.string [13, 10]), .off, none, none, some 1, some 4⟩ = .ok (m, scanner) ∧
      (getLines (fun _ _ => 0) noEngine 3 ⟨m, crlfChunks, scanner⟩).2 =
        [some ([97, 98], [13, 10], 1), some ([], [13, 10], 2), some ([99], [], 3)] := by
  have hsplit : split [13, 10] (streamBytes crlfChunks) = [([97, 98], [13, 10]), ([], [13, 10]), ([99], [])] := by decide
  obtain ⟨m, scanner, hnew, hlines, -⟩ := get_line_splits (fun _ _ => 0) noEngine [] crlfChunks (by simp [crlfChunks])
    (show [13, 10] ≠ [] by simp) (show (0 : Int) < 1 by decide)
    (show ∀ x ∈ split [13, 10] _, Short 4 x.1 x.2 by rw [hsplit]; simp [Short])
  rw [hsplit] at hlines
  exact ⟨m, scanner, hnew, hlines⟩

end Emilua.Bytes
