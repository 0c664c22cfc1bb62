import Emilua.Bytes.Trimming

/-!
The fields of a record, as a function of its bytes: those that `get_line` finds
in a record with a terminator and those it finds in the last one of the stream.
-/
namespace Emilua.Bytes

/-- What `get_line` returns, without the windows it is in. -/
inductive Contents where
  | line (s : List UInt8)
  | fields (ss : List (List UInt8))
  | callback (s : List UInt8)
deriving DecidableEq, Repr

def Record.contents (m : Memory) : Record → Contents
  | .line bs => .line (bs.read m)
  | .fields bss => .fields (bss.map (Span.read m))
  | .callback bs => .callback (bs.read m)

/-! The fields between the occurrences of a string. -/

def fieldsBetween (sep : List UInt8) : Nat → List UInt8 → Except ScanError (List (List UInt8))
  | 0, _ => .error .stuck
  | fuel + 1, s =>
      match if s = [] then none else find s sep 0 with
      | none => .ok [s]
      | some i => (fieldsBetween sep fuel (s.drop (i + sep.length))).map (s.take i :: ·)

def Range.bytes {s : List UInt8} (x : Range s.length) : List UInt8 := (s.drop x.first).take (x.second - x.first)

section
variable {R : Type}

/-- The pieces that a regex without groups leaves of a record. -/
def piecesOf (e : Engine R) (r : R) (s : List UInt8) (found : List (Range s.length)) : Except ScanError Contents :=
  if e.markCount r = 0 then .ok (.fields (found.map Range.bytes)) else .error (.span .notSupported)

/-- The matches that `regex_patsplit` goes through. -/
def patsplitOf (e : Engine R) (r : R) (s : List UInt8) : List (Range s.length) :=
  match e.search r s 0 .default with
  | none => []
  | some x => patsplitLoop e r s x .default

/-- The fields of a record with the bytes `s`. -/
def Scanner.split (e : Engine R) (self : Scanner R) (s : List UInt8) : Except ScanError Contents :=
  match self.fieldSeparator, self.fieldPattern with
  | some (.string sep), _ => if s = [] then .ok (.fields []) else (fieldsBetween sep (s.length + 1) s).map .fields
  | some (.regex r), _ => piecesOf e r s (e.tokens r s)
  | some .callback, _ => .ok (.callback s)
  | none, some r => piecesOf e r s (patsplitOf e r s)
  | none, none => .ok (.line s)

/-- The bytes that are trimmed off a record. -/
def Trim.bytes (m : Memory) : Trim → Option (List UInt8)
  | .off => none
  | .on => some lws
  | .set lws => some (lws.read m)

variable {e : Engine R} {m : Memory} {bs line : Span} {sep : List UInt8} {self : Scanner R}

theorem apply_bytes (h : bs.Within m) (trim : Trim) : (trim.apply m bs).Within m ∧
    (trim.apply m bs).read m = (trim.bytes m).elim (bs.read m) fun set => trimBytes set (bs.read m) := by
  cases trim with
  | off => exact ⟨h, rfl⟩
  | on => exact trimmed_spec h (.literal lws)
  | set set => exact trimmed_spec h set

theorem sub_read (x : Range (bs.read m).length) : (bs.sub x).read m = x.bytes := by
  have hfirst := x.first_le
  have hsecond := x.second_le
  have hlen := Memory.read_length m bs.data bs.size.toNat
  have hcount : ((x.second : Int) - x.first).toNat = x.second - x.first := by omega
  unfold Range.bytes
  change m.read (bs.data.map (·.add x.first)) ((x.second : Int) - x.first).toNat =
    ((m.read bs.data bs.size.toNat).drop x.first).take _
  change (m.read bs.data bs.size.toNat).length ≤ bs.size.toNat at hlen
  change x.second ≤ (m.read bs.data bs.size.toNat).length at hsecond
  rw [hcount]
  cases hd : bs.data with
  | none => simp [Memory.read]
  | some p =>
      simp only [Option.map_some, Memory.read, Ptr.add, List.drop_take, List.drop_drop, List.take_take]
      congr 1
      omega

theorem fieldLoop_contents (h : line.Within m) (fuel : Nat) :
    (fieldLoop m sep fuel line).map (List.map (Span.read m)) = fieldsBetween sep fuel (line.read m) := by
  induction fuel generalizing line with
  | zero => rfl
  | succ fuel ih =>
      have hlen := h.read_length
      have hnonneg := h.size_nonneg
      have hcap := h.size_le
      have hempty : line.read m = [] ↔ (1 : Int) > line.size := by
        rw [← List.length_eq_zero_iff]
        omega
      rw [fieldLoop, fieldsBetween, Span.searchFrom, if_neg (by omega)]
      by_cases hnil : line.read m = []
      · rw [if_pos (hempty.mp hnil), if_pos hnil]
        rfl
      · rw [if_neg (mt hempty.mpr hnil), if_neg hnil, View.read, Int.sub_self, Int.toNat_zero]
        cases hi : find (line.read m) sep 0 with
        | none => rfl
        | some i =>
            obtain ⟨hle, hocc⟩ := find_prefix hi
            have hfit := hocc.length_le
            rw [List.length_drop] at hfit
            obtain ⟨field, hfield, -⟩ := slice_spec h 1 i le_rfl (by omega) (by omega)
            obtain ⟨-, -, hread⟩ := @slice_read m line field h 0 i (Nat.zero_le i) (by omega) hfield
            obtain ⟨rest, hrest, hin, hsize, -, hwindow, -⟩ := slice_spec h (i + 1 + sep.length) line.size (by omega) (by omega) hcap
            have htail : rest.read m = (line.read m).drop (i + sep.length) := by
              rw [hin.read_eq, hwindow, hsize, h.read_eq, List.drop_take]
              congr 1
              · omega
              · congr 1
                omega
            have hnext := ih hin
            rw [htail] at hnext
            simp only [Option.map_some, Except.mapError, bind, Except.bind, Int.add_sub_cancel, hfield, hrest]
            cases hloop : fieldLoop m sep fuel rest with
            | error err =>
                rw [hloop] at hnext
                rw [← hnext]
                rfl
            | ok fields =>
                rw [hloop] at hnext
                rw [← hnext]
                simp only [Except.map, List.map_cons, hread, List.drop_zero]

theorem fieldsBetween_ends (hsep : sep ≠ []) {fuel : Nat} {s : List UInt8} (hfuel : s.length < fuel) :
    ∃ fields, fieldsBetween sep fuel s = .ok fields := by
  induction fuel generalizing s with
  | zero => exact absurd hfuel (Nat.not_lt_zero _)
  | succ fuel ih =>
      rw [fieldsBetween]
      split
      · exact ⟨_, rfl⟩
      · rename_i i hi
        split at hi
        · cases hi
        · have hpos := List.length_pos_iff.mpr hsep
          obtain ⟨hle, hocc⟩ := find_prefix hi
          have hfit := hocc.length_le
          rw [List.length_drop] at hfit
          obtain ⟨fields, hfields⟩ := @ih (s.drop (i + sep.length)) (by rw [List.length_drop]; omega)
          rw [hfields]
          exact ⟨_, rfl⟩

theorem toSpan_sub (found : List (Range (bs.read m).length)) :
    ((found.map ((View.window bs).sub m)).filterMap Value.toSpan).map (Span.read m) = found.map Range.bytes := by
  induction found with
  | nil => rfl
  | cons x found ih =>
      have hhead : (bs.sub x).read m = x.bytes := sub_read x
      exact congrArg₂ List.cons hhead ih

theorem spanFields_contents (r : R) {x : Except Error (List Value)} (found : List (Range (bs.read m).length))
    (hx : x = if e.markCount r = 0 then .ok (found.map ((View.window bs).sub m)) else .error .notSupported) :
    (spanFields x).map (Record.contents m) = piecesOf e r (bs.read m) found := by
  rw [hx, piecesOf]
  by_cases hmark : e.markCount r = 0
  · rw [if_pos hmark, if_pos hmark]
    simp only [spanFields, Except.mapError, Except.map, Record.contents, toSpan_sub]
  · rw [if_neg hmark, if_neg hmark]
    rfl

theorem regexSplit_contents (r : R) :
    (spanFields (regexSplit e r m (.span bs))).map (Record.contents m) =
      piecesOf e r (bs.read m) (e.tokens r (bs.read m)) :=
  spanFields_contents r _ rfl

theorem regexPatsplit_contents (r : R) :
    (spanFields (regexPatsplit e r m (.span bs))).map (Record.contents m) =
      piecesOf e r (bs.read m) (patsplitOf e r (bs.read m)) := by
  refine spanFields_contents r _ ?_
  simp only [regexPatsplit, Arg.view, bind, Except.bind, View.read]
  by_cases hmark : e.markCount r = 0
  · rw [if_pos hmark, if_pos hmark, patsplitOf]
    cases e.search r (bs.read m) 0 .default <;> rfl
  · rw [if_neg hmark, if_neg hmark]

theorem stringFields_contents (h : line.Within m) :
    (stringFields m sep line).map (Record.contents m) =
      if line.read m = [] then .ok (.fields []) else (fieldsBetween sep ((line.read m).length + 1) (line.read m)).map .fields := by
  have hlen := h.read_length
  have hnonneg := h.size_nonneg
  have hempty : line.read m = [] ↔ line.size = 0 := by
    rw [← List.length_eq_zero_iff]
    omega
  rw [stringFields]
  by_cases hnil : line.read m = []
  · rw [if_pos (hempty.mp hnil), if_pos hnil]
    rfl
  · rw [if_neg (mt hempty.mpr hnil), if_neg hnil, hlen, ← fieldLoop_contents h]
    cases fieldLoop m sep (line.size.toNat + 1) line <;> rfl

/-- The fields of a record with a terminator. -/
theorem fields_contents (h : line.Within m) :
    (self.fields e m line).map (Record.contents m) = self.split e (line.read m) := by
  unfold Scanner.fields Scanner.split
  cases self.fieldSeparator with
  | none =>
      cases self.fieldPattern with
      | none => rfl
      | some r => exact regexPatsplit_contents r
  | some sep =>
      cases sep with
      | string sep => exact stringFields_contents h
      | regex r => exact regexSplit_contents r
      | callback => rfl

/-- The fields of the last record: a function is no regex. -/
theorem lastFields_contents (h : line.Within m) :
    (self.lastFields e m line).map (Record.contents m) =
      match self.fieldSeparator with
      | some .callback => .error (.span (.invalidArgument (some 1)))
      | _ => self.split e (line.read m) := by
  unfold Scanner.lastFields Scanner.split
  cases self.fieldSeparator with
  | none =>
      cases self.fieldPattern with
      | none => rfl
      | some r => exact regexPatsplit_contents r
  | some sep =>
      cases sep with
      | string sep => exact stringFields_contents h
      | regex r => exact regexSplit_contents r
      | callback => rfl

/-! The calls. -/

variable {junk : Nat → Nat → UInt8} {w w' : Reader R} {r t : List UInt8}

/-- What a call returns, without the windows it is in. -/
def contentsOf (x : Reader R × Except ScanError Record) : Except ScanError Contents :=
  x.2.map (Record.contents x.1.mem)

/-- The bytes of a record once it is trimmed. -/
def Reader.trimmed (w : Reader R) (s : List UInt8) : List UInt8 :=
  (w.self.trimRecord.bytes w.mem).elim s fun set => trimBytes set s

/-- How the fields of a record are found. -/
structure Scanner.SameFields (s s' : Scanner R) : Prop where
  trimRecord : s'.trimRecord = s.trimRecord
  fieldSeparator : s'.fieldSeparator = s.fieldSeparator
  fieldPattern : s'.fieldPattern = s.fieldPattern

theorem split_congr {self self' : Scanner R} (h : self.SameFields self') (e : Engine R) (s : List UInt8) :
    self'.split e s = self.split e s := by
  rw [Scanner.split, Scanner.split, h.fieldSeparator, h.fieldPattern]

theorem Scanner.SameOptions.fields {self self' : Scanner R} (h : self.SameOptions self') : self.SameFields self' :=
  ⟨h.trimRecord, h.fieldSeparator, h.fieldPattern⟩

theorem terminated_contents {x : Reader R × Except ScanError Record} (h : w.Sound)
    (hcall : Call junk e w (.terminated r t) x) :
    x.1.self.trimRecord = w.self.trimRecord ∧ contentsOf x = w.self.split e (x.1.trimmed r) := by
  obtain ⟨w₁, wnd, h₁, -, hsame, -, hleaves⟩ := hcall.arrives h
  cases hleaves with
  | @terminated line terminator size hfind =>
      obtain ⟨hin, -⟩ := findRecord_spec h₁.wnd_within hfind
      obtain ⟨htrim, hread⟩ := apply_bytes hin w₁.self.trimRecord
      have hfields : w.self.SameFields (w₁.found e line terminator size).1.self := (hsame.trans (.update ..)).fields
      have hcontents := @fields_contents R e _ _ (w₁.found e line terminator size).1.self htrim
      rw [hread, split_congr hfields] at hcontents
      exact ⟨hfields.trimRecord, hcontents⟩

/-- The last record: a function is taken for a regex. -/
theorem ended_contents {x : Reader R × Except ScanError Record} (h : w.Sound) (hcall : Call junk e w (.ended r) x) :
    x.1.self.trimRecord = w.self.trimRecord ∧ contentsOf x =
      match w.self.fieldSeparator with
      | some .callback => .error (.span (.invalidArgument (some 1)))
      | _ => w.self.split e (x.1.trimmed r) := by
  obtain ⟨w₁, wnd, h₁, -, hsame, -, hleaves⟩ := hcall.arrives h
  obtain ⟨rfl, -, w₂, h₂, -, hsame', -, -, -, -, hread, rfl⟩ := hleaves.ended_spec h₁
  obtain ⟨htrim, htrimmed⟩ := apply_bytes h₂.wnd_within w₂.self.trimRecord
  have hfields : w.self.SameFields (w₂.last e wnd).1.self := ((hsame.trans hsame').trans (.update ..)).fields
  have hcontents := @lastFields_contents R e _ _ (w₂.last e wnd).1.self htrim
  rw [htrimmed, hread, split_congr hfields, hfields.fieldSeparator] at hcontents
  exact ⟨hfields.trimRecord, hcontents⟩

theorem split_ends (hsep : self.fieldSeparator ≠ some (.string [])) (s : List UInt8) : self.split e s ≠ .error .stuck := by
  unfold Scanner.split piecesOf
  split
  · rename_i sep hstring
    have hne : sep ≠ [] := by
      rintro rfl
      exact hsep hstring
    obtain ⟨fields, hfields⟩ := fieldsBetween_ends hne (Nat.lt_succ_self s.length)
    rw [hfields]
    split <;> nofun
  · split <;> nofun
  · nofun
  · split <;> nofun
  · nofun

/-- A record has the same fields with a terminator after it and at the end of
the stream, exactly if they are not found by a function. -/
theorem eof_fields_iff (h : w.Sound) (h' : w'.Sound) (hsame : w.self.SameFields w'.self)
    (hcall : Call junk e w (.terminated r t) (getLine junk e w)) (hcall' : Call junk e w' (.ended r) (getLine junk e w'))
    (hset : w'.self.trimRecord.bytes (getLine junk e w').1.mem = w.self.trimRecord.bytes (getLine junk e w).1.mem) :
    (contentsOf (getLine junk e w') = contentsOf (getLine junk e w) ↔ w.self.fieldSeparator ≠ some .callback) ∧
      (w.self.fieldSeparator ≠ some (.string []) → contentsOf (getLine junk e w) ≠ .error .stuck) := by
  obtain ⟨htrim, hcontents⟩ := terminated_contents h hcall
  obtain ⟨htrim', hcontents'⟩ := ended_contents h' hcall'
  have hbytes : (getLine junk e w').1.trimmed r = (getLine junk e w).1.trimmed r := by
    rw [Reader.trimmed, Reader.trimmed, htrim, htrim', hset]
  rw [hcontents, hcontents', hbytes, split_congr hsame, hsame.fieldSeparator]
  refine ⟨?_, fun hsep => split_ends hsep _⟩
  cases hfs : w.self.fieldSeparator with
  | none => simp
  | some fs =>
      cases fs with
      | string | regex => simp
      | callback => simp [Scanner.split, hfs]

end

/-- A new scanner for lines of up to 8 bytes, which are trimmed and then split. -/
def splitting (fields : FieldSeparator Unit) (cs : List Chunk) : Reader Unit :=
  ⟨[List.replicate 8 0], cs, ⟨.string [10], .on, some fields, none, 8, ⟨some ⟨0, 0⟩, 8, 8⟩, 0, 0, 0, none⟩⟩

theorem splitting_sound (fields : FieldSeparator Unit) (cs : List Chunk) : (splitting fields cs).Sound :=
  (@Reader.scannerNew_sound Unit (fun _ _ => 0) [] _ ⟨some (.string [10]), .on, some fields, none, some 8, some 8⟩ _ rfl cs).1

/-- `" a,b\n"`. -/
theorem splitting_terminated (fields : FieldSeparator Unit) :
    Call (fun _ _ => 0) noEngine (splitting fields [.data 32 [97, 44, 98, 10]]) (.terminated [32, 97, 44, 98] [10])
      (getLine (fun _ _ => 0) noEngine (splitting fields [.data 32 [97, 44, 98, 10]])) :=
  .intro rfl (.read rfl rfl rfl rfl rfl (.refl _ _))
    (@Leaves.terminated Unit _ _ _ _ ⟨some ⟨0, 0⟩, 4, 8⟩ (.literal [10]) 5 rfl)

/-- `" a,b"`. -/
theorem splitting_ended (fields : FieldSeparator Unit) :
    Call (fun _ _ => 0) noEngine (splitting fields [.data 32 [97, 44, 98]]) (.ended [32, 97, 44, 98])
      (getLine (fun _ _ => 0) noEngine (splitting fields [.data 32 [97, 44, 98]])) := by
  have hleaves := @Leaves.ended Unit (fun _ _ => 0) noEngine
    ⟨[[32, 97, 44, 98, 0, 0, 0, 0]], [], { (splitting fields []).self with bufferUsed := 4 }⟩ ⟨some ⟨0, 0⟩, 4, 8⟩
    _ _ _ _ rfl rfl rfl rfl (by decide)
  exact .intro rfl (.read rfl rfl rfl rfl rfl (.refl _ _)) hleaves

theorem eof_fields_comma :
    (contentsOf (getLine (fun _ _ => 0) noEngine (splitting (.string [44]) [.data 32 [97, 44, 98]])) =
        contentsOf (getLine (fun _ _ => 0) noEngine (splitting (.string [44]) [.data 32 [97, 44, 98, 10]])) ↔
      (splitting (.string [44]) [.data 32 [97, 44, 98, 10]]).self.fieldSeparator ≠ some .callback) ∧
    contentsOf (getLine (fun _ _ => 0) noEngine (splitting (.string [44]) [.data 32 [97, 44, 98, 10]])) =
      .ok (.fields [[97], [98]]) := by
  have hset : ∀ m m', Trim.bytes m Trim.on = Trim.bytes m' .on := fun _ _ => rfl
  have hcall := splitting_terminated (.string [44])
  have hcall' := splitting_ended (.string [44])
  have hsound := splitting_sound (.string [44]) [.data 32 [97, 44, 98, 10]]
  have hsound' := splitting_sound (.string [44]) [.data 32 [97, 44, 98]]
  have hboth := eof_fields_iff hsound hsound' ⟨rfl, rfl, rfl⟩ hcall hcall' (hset _ _)
  exact ⟨hboth.1, by decide⟩

/-- The function that splits a record is not called for the last one. -/
theorem last_record_skips_function :
    ∃ m scanner, scannerNew (fun _ _ => 0) []
        ⟨some (.string [10]), .on, some (.callback : FieldSeparator Unit), none, some 8, some 8⟩ = .ok (m, scanner) ∧
      contentsOf (getLine (fun _ _ => 0) noEngine ⟨m, [.data 32 [97, 44, 98, 10]], scanner⟩) =
        .ok (.callback [97, 44, 98]) ∧
      contentsOf (getLine (fun _ _ => 0) noEngine ⟨m, [.data 32 [97, 44, 98]], scanner⟩) =
        .error (.span (.invalidArgument (some 1))) :=
  ⟨_, _, rfl, by decide, by decide⟩

end Emilua.Bytes
