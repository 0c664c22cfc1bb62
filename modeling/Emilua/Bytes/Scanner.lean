import Emilua.Bytes.Regex

/-!
`stream.scanner`: `new` and `get_line`. The stream gives its bytes in chunks
and then eof, and may fail on the way; the buffer is compacted before a record
is looked for, and grows when it is full.
-/
namespace Emilua.Bytes

inductive Chunk where
  | data (b : UInt8) (bs : List UInt8)
  | fail (code : Nat)
deriving DecidableEq, Repr

inductive ReadError where
  | eof
  | other (code : Nat)
deriving DecidableEq, Repr

/-- What is left of a chunk, before the chunks that follow. -/
def unread : List UInt8 → List Chunk → List Chunk
  | [], cs => cs
  | b :: bs, cs => .data b bs :: cs

/-- `read_some`, into the bytes of `bs`. -/
def readSome (m : Memory) (bs : Span) : List Chunk → Memory × List Chunk × Except ReadError Nat
  | [] => (m, [], .error .eof)
  | .fail code :: cs => (m, cs, .error (.other code))
  | .data b xs :: cs =>
      let n := min (xs.length + 1) bs.size.toNat
      (m.write bs.data ((b :: xs).take n), unread ((b :: xs).drop n) cs, .ok n)

inductive Separator (R : Type) where
  | string (s : List UInt8)
  | regex (r : R)

inductive Trim where
  | off
  | on
  | set (lws : View)

inductive FieldSeparator (R : Type) where
  | string (s : List UInt8)
  | regex (r : R)
  | callback

/-- The table given to `scanner.new`. -/
structure Options (R : Type) where
  recordSeparator : Option (Separator R)
  trimRecord : Trim
  fieldSeparator : Option (FieldSeparator R)
  fieldPattern : Option R
  bufferSizeHint : Option Int
  maxRecordSize : Option Int

structure Scanner (R : Type) where
  recordSeparator : Separator R
  trimRecord : Trim
  fieldSeparator : Option (FieldSeparator R)
  fieldPattern : Option R
  maxRecordSize : Int
  buffer : Span
  bufferUsed : Int
  recordSize : Int
  recordNumber : Int
  recordTerminator : Option View

/-- The memory, what the stream still has to give, and the scanner. -/
structure Reader (R : Type) where
  mem : Memory
  stream : List Chunk
  self : Scanner R

/-- What `get_line` returns; for a function as `field_separator`, its argument. -/
inductive Record where
  | line (bs : Span)
  | fields (bss : List Span)
  | callback (bs : Span)
deriving DecidableEq, Repr

inductive ScanError where
  | span (e : Error)
  | eof
  | read (code : Nat)
  | msgSize
  | stuck
deriving DecidableEq, Repr

def ReadError.raised : ReadError → ScanError
  | .eof => .eof
  | .other code => .read code

def Trim.apply (m : Memory) (bs : Span) : Trim → Span
  | .off => bs
  | .on => bs.trimmed m (.literal lws)
  | .set lws => bs.trimmed m lws

def Value.toSpan : Value → Option Span
  | .span bs => some bs
  | _ => none

section
variable {R : Type} (junk : Nat → Nat → UInt8) (e : Engine R)

/-- `scanner.new`. -/
def scannerNew (m : Memory) (opts : Options R) : Except Error (Memory × Scanner R) := do
  let size := opts.bufferSizeHint.getD 4096
  let c ← newSpan size size
  let (m, buffer) := c.run junk m
  .ok (m, {
    recordSeparator := opts.recordSeparator.getD (.string [13, 10])
    trimRecord := opts.trimRecord
    fieldSeparator := opts.fieldSeparator
    fieldPattern := opts.fieldPattern
    maxRecordSize := opts.maxRecordSize.getD (64 * 1024)
    buffer := buffer
    bufferUsed := 0
    recordSize := 0
    recordNumber := 0
    recordTerminator := none })

/-- The loop over the separators of the fields, which ends if the separator
is not empty. -/
def fieldLoop (m : Memory) (sep : List UInt8) : Nat → Span → Except ScanError (List Span)
  | 0, _ => .error .stuck
  | fuel + 1, line => do
      match ← (line.searchFrom find m (.literal sep) 1).mapError .span with
      | none => .ok [line]
      | some idx =>
          let field ← (line.slice 1 (idx - 1)).mapError .span
          let rest ← (line.slice (idx + sep.length) line.size).mapError .span
          let fields ← fieldLoop m sep fuel rest
          .ok (field :: fields)

def stringFields (m : Memory) (sep : List UInt8) (line : Span) : Except ScanError Record :=
  if line.size = 0 then .ok (.fields [])
  else (fieldLoop m sep (line.size.toNat + 1) line).map .fields

def spanFields (x : Except Error (List Value)) : Except ScanError Record :=
  (x.mapError .span).map fun vs => .fields (vs.filterMap Value.toSpan)

/-- What is returned for a record that has a terminator. -/
def Scanner.fields (m : Memory) (self : Scanner R) (line : Span) : Except ScanError Record :=
  match self.fieldSeparator, self.fieldPattern with
  | some (.string sep), _ => stringFields m sep line
  | some (.regex r), _ => spanFields (regexSplit e r m (.span line))
  | some .callback, _ => .ok (.callback line)
  | none, some r => spanFields (regexPatsplit e r m (.span line))
  | none, none => .ok (.line line)

/-- What is returned for the last record, when it has none: what is not a
string is taken for a regex. -/
def Scanner.lastFields (m : Memory) (self : Scanner R) (line : Span) : Except ScanError Record :=
  match self.fieldSeparator, self.fieldPattern with
  | some (.string sep), _ => stringFields m sep line
  | some (.regex r), _ => spanFields (regexSplit e r m (.span line))
  | some .callback, _ => .error (.span (.invalidArgument (some 1)))
  | none, some r => spanFields (regexPatsplit e r m (.span line))
  | none, none => .ok (.line line)

/-- The first record of the window, its terminator and the size of both. -/
def Scanner.findRecord (m : Memory) (self : Scanner R) (wnd : Span) : Except Error (Option (Span × View × Int)) :=
  match self.recordSeparator with
  | .string sep => do
      match ← wnd.searchFrom find m (.literal sep) 1 with
      | none => .ok none
      | some idx =>
          let line ← wnd.slice 1 (idx - 1)
          .ok (some (line, .literal sep, idx - 1 + sep.length))
  | .regex r =>
      match e.search r (wnd.read m) 0 ⟨false, true, false⟩ with
      | none => .ok none
      | some x => do
          let line ← wnd.slice 1 x.first
          let terminator ← wnd.slice (x.first + 1) x.second
          .ok (some (line, .window terminator, x.second))

namespace Reader

def raise {α β : Type} (w : Reader R) (x : Except Error α) (k : α → Reader R × Except ScanError β) :
    Reader R × Except ScanError β :=
  match x with
  | .ok a => k a
  | .error err => (w, .error (.span err))

/-- A buffer that is full is replaced by one of twice its size, up to
`max_record_size`. -/
def grow (w : Reader R) : Except ScanError (Reader R) :=
  if w.self.buffer.size = w.self.bufferUsed then
    let size := min (w.self.buffer.size * 2) w.self.maxRecordSize
    if w.self.buffer.size ≥ size then .error .msgSize
    else do
      let c ← (newSpan size size).mapError .span
      let (m, buffer) := c.run junk w.mem
      let (m, _) := buffer.copy m (.window w.self.buffer)
      .ok { w with mem := m, self := { w.self with buffer } }
  else .ok w

/-- A record has been found in the buffer. -/
def found (w : Reader R) (line : Span) (terminator : View) (size : Int) : Reader R × Except ScanError Record :=
  let self := { w.self with
    recordTerminator := some terminator, recordSize := size, recordNumber := w.self.recordNumber + 1 }
  ({ w with self }, self.fields e w.mem (self.trimRecord.apply w.mem line))

/-- The stream has ended after a record without terminator. -/
def last (w : Reader R) (wnd : Span) : Reader R × Except ScanError Record :=
  let wnd := w.self.trimRecord.apply w.mem wnd
  let terminator := match w.self.recordSeparator with
    | .string _ => View.literal []
    | .regex _ => View.window .null
  let self := { w.self with
    recordTerminator := some terminator, recordSize := wnd.size, recordNumber := w.self.recordNumber + 1 }
  ({ w with self }, self.lastFields e w.mem wnd)

/-- The loop of `get_line`, over the bytes in `wnd`. -/
def loop : Nat → Reader R → Span → Reader R × Except ScanError Record
  | 0, w, _ => (w, .error .stuck)
  | fuel + 1, w, wnd =>
      w.raise (w.self.findRecord e w.mem wnd) fun
      | some (line, terminator, size) => w.found e line terminator size
      | none =>
          match w.grow junk with
          | .error err => (w, .error err)
          | .ok w =>
              w.raise (w.self.buffer.slice (1 + w.self.bufferUsed) w.self.buffer.size) fun target =>
                match readSome w.mem target w.stream with
                | (m, stream, .error err) =>
                    let w := { w with mem := m, stream }
                    if err ≠ .eof ∨ wnd.size = 0 then (w, .error err.raised) else w.last e wnd
                | (m, stream, .ok n) =>
                    let w := { w with
                      mem := m, stream, self := { w.self with bufferUsed := w.self.bufferUsed + n } }
                    w.raise (w.self.buffer.slice 1 w.self.bufferUsed) fun wnd => loop fuel w wnd

end Reader

/-- The bytes a stream has; after a failure it goes on. -/
def streamBytes : List Chunk → List UInt8
  | [] => []
  | .data b bs :: cs => b :: bs ++ streamBytes cs
  | .fail _ :: cs => streamBytes cs

/-- `get_line`. -/
def getLine (w : Reader R) : Reader R × Except ScanError Record :=
  w.raise (w.self.buffer.slice 1 (w.self.bufferUsed - w.self.recordSize)) fun wnd =>
    let go (w : Reader R) := w.loop junk e ((streamBytes w.stream).length + 1) wnd
    if w.self.recordSize > 0 then
      w.raise (w.self.buffer.slice (1 + w.self.recordSize) w.self.buffer.size) fun src =>
        go { w with
          mem := (wnd.copy w.mem (.window src)).1
          self := { w.self with bufferUsed := w.self.bufferUsed - w.self.recordSize, recordSize := 0 } }
    else go w

end

end Emilua.Bytes
