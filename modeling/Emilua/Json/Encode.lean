import Emilua.Lib.Ancestors
import Emilua.Json.Decode

/-!
`json.encode` of values without `__tojson`: a recursion over tables that keeps
the ones it is inside of in `visited`.
-/
namespace Emilua.Json
open Wire

/-- What the writer is given. A key is a string value. -/
inductive Symbol where
  | value (a : Scalar)
  | beginArray
  | endArray
  | beginObject
  | endObject
deriving DecidableEq, Repr

inductive EncodeError where
  | invalidArgument
  | cycleExists
  | notSupported
  | lengthOfCdata
  | writer (code : Nat)
  | stuck
deriving DecidableEq, Repr

/-- The table that is `json.null`, the border that `#` finds, the integer that
a number equals, and the error of a writer that refuses a symbol. -/
structure Encoder where
  null : Nat
  length : LuaTable → Nat
  toInteger : UInt64 → Option Int64
  refuses : List Symbol → Symbol → Option Nat

structure Encoding where
  visited : Finset LuaVal
  written : List Symbol

/-- How the first tests tell values apart. -/
inductive Kind where
  | invalid
  | scalar (a : Scalar)
  | cdata
  | table (t : Nat)

def Encoder.number (e : Encoder) (bits : UInt64) : Scalar :=
  match e.toInteger bits with
  | some i => .integer i
  | none => .real bits

def Encoder.kind (e : Encoder) : LuaVal → Kind
  | .nil | .function _ | .thread _ => .invalid
  | .boolean b => .scalar (.boolean b)
  | .number bits => .scalar (e.number bits)
  | .string s => .scalar (.string s)
  | .table t => if t = e.null then .scalar .null else .table t
  | .userdata _ | .lightuserdata _ => .invalid
  | .cdata _ => .cdata

def Encoder.write (e : Encoder) (s : Encoding) (symbol : Symbol) : Except EncodeError Encoding :=
  match e.refuses s.written symbol with
  | some code => .error (.writer code)
  | none => .ok { s with written := s.written ++ [symbol] }

def table (h : Heap) (t : Nat) : LuaTable := h.tables[t]?.getD ⟨false, ∅⟩

def ipairsFrom (t : LuaTable) : Nat → Nat → List LuaVal
  | 0, _ => []
  | n + 1, i =>
      match (t.fields.lookup (.index i)).getD .nil with
      | .nil => []
      | v => v :: ipairsFrom t n (i + 1)

/-- The elements from the first on, up to one that is `nil`. -/
def ipairs (t : LuaTable) : List LuaVal := ipairsFrom t t.fields.entries.length 1

def pairs (t : LuaTable) : List (LuaVal × LuaVal) := t.fields.entries.map fun f => (f.1, f.2)

/-- Fields of an object that are left out whatever their key is. -/
def skips : LuaVal → Bool
  | .function _ | .thread _ | .userdata _ | .lightuserdata _ => true
  | _ => false

def encodeValue (e : Encoder) (recur : Encoding → LuaVal → Except EncodeError Encoding) (s : Encoding) (value : LuaVal) :
    Except EncodeError Encoding :=
  match e.kind value with
  | .scalar a => e.write s (.value a)
  | _ => recur s value

/-- One turn of the loop over the fields of an object. -/
def encodeField (e : Encoder) (recur : Encoding → LuaVal → Except EncodeError Encoding) (s : Encoding)
    (field : LuaVal × LuaVal) : Except EncodeError Encoding :=
  match field.1 with
  | .string k =>
      if skips field.2 then .ok s
      else do
        let s ← e.write s (.value (.string k))
        encodeValue e recur s field.2
  | _ => .ok s

def Encoder.isArray (e : Encoder) (t : LuaTable) : Bool := t.metatable || 0 < e.length t

def encodeTable (e : Encoder) (recur : Encoding → LuaVal → Except EncodeError Encoding) (t : LuaTable) (s : Encoding) :
    Except EncodeError Encoding :=
  if e.isArray t then do
    let s ← e.write s .beginArray
    let s ← (ipairs t).foldlM recur s
    e.write s .endArray
  else do
    let s ← e.write s .beginObject
    let s ← (pairs t).foldlM (encodeField e recur) s
    e.write s .endObject

/-- `json_encode_recur`. -/
def jsonEncodeRecur (e : Encoder) (h : Heap) : Nat → Encoding → LuaVal → Except EncodeError Encoding
  | 0, _, _ => .error .stuck
  | fuel + 1, s, value =>
      match e.kind value with
      | .invalid => .error .invalidArgument
      | .scalar a => e.write s (.value a)
      | .cdata =>
          if value ∈ s.visited then .error .cycleExists
          else .error .lengthOfCdata
      | .table t =>
          if value ∈ s.visited then .error .cycleExists
          else do
            let s ← encodeTable e (jsonEncodeRecur e h fuel) (table h t) { s with visited := insert value s.visited }
            .ok { s with visited := s.visited.erase value }

/-- The state of an enclosing call. -/
structure EncodeState where
  encoding : Encoding
  indent : Bool

structure Options where
  state : Option EncodeState
  indent : Bool

/-- `json.encode`. What it generates is the text of all the symbols written; a
call within another one generates nothing. -/
def encode (e : Encoder) (h : Heap) (fuel : Nat) (value : LuaVal) (opts : Option Options) :
    Except EncodeError (Encoding × Option (List Symbol)) :=
  match opts.bind Options.state with
  | none =>
      if (opts.map Options.indent).getD false then .error .notSupported
      else do
        let s ← jsonEncodeRecur e h fuel ⟨∅, []⟩ value
        .ok (s, some s.written)
  | some state =>
      if state.indent then .error .notSupported
      else do
        let s ← jsonEncodeRecur e h fuel state.encoding value
        .ok (s, none)

/-! What a call encodes. -/

mutual

def Doc.symbols : Doc → List Symbol
  | .leaf a => [.value a]
  | .array es => .beginArray :: (arraySymbols es ++ [.endArray])
  | .object ms => .beginObject :: (objectSymbols ms ++ [.endObject])

def arraySymbols : List Doc → List Symbol
  | [] => []
  | d :: ds => d.symbols ++ arraySymbols ds

def objectSymbols : List (Bytes × Doc) → List Symbol
  | [] => []
  | (k, d) :: ms => .value (.string k) :: (d.symbols ++ objectSymbols ms)

end

/-- The member that a field is encoded as. -/
def member : LuaVal × LuaVal → Option (Bytes × LuaVal)
  | (.string k, v) => if skips v then none else some (k, v)
  | _ => none

def members (t : LuaTable) : List (Bytes × LuaVal) := (pairs t).filterMap member

def Encoder.children (e : Encoder) (t : LuaTable) : List LuaVal :=
  if e.isArray t then ipairs t else (members t).map Prod.snd

/-- A path that a call follows goes from a table to one of these. -/
def Encoder.Child (e : Encoder) (h : Heap) (v c : LuaVal) : Prop :=
  ∃ t, e.kind v = .table t ∧ c ∈ e.children (table h t)

/-- What is looked up in `visited`. -/
def Encoder.Tracked (e : Encoder) (v : LuaVal) : Prop := e.kind v = .cdata ∨ ∃ t, e.kind v = .table t

mutual

/-- A document says what a value holds, and says it again wherever the value is
met again. -/
inductive Unfolds (e : Encoder) (h : Heap) : LuaVal → Doc → Prop where
  | scalar {v a} (hkind : e.kind v = .scalar a) : Unfolds e h v (.leaf a)
  | array {v t ds} (hkind : e.kind v = .table t) (harray : e.isArray (table h t) = true)
      (hds : UnfoldsAll e h (ipairs (table h t)) ds) : Unfolds e h v (.array ds)
  | object {v t ms} (hkind : e.kind v = .table t) (harray : e.isArray (table h t) = false)
      (hms : UnfoldsMembers e h (members (table h t)) ms) : Unfolds e h v (.object ms)

inductive UnfoldsAll (e : Encoder) (h : Heap) : List LuaVal → List Doc → Prop where
  | nil : UnfoldsAll e h [] []
  | cons {v vs d ds} (hd : Unfolds e h v d) (hds : UnfoldsAll e h vs ds) : UnfoldsAll e h (v :: vs) (d :: ds)

inductive UnfoldsMembers (e : Encoder) (h : Heap) : List (Bytes × LuaVal) → List (Bytes × Doc) → Prop where
  | nil : UnfoldsMembers e h [] []
  | cons {k v vs d ds} (hd : Unfolds e h v d) (hds : UnfoldsMembers e h vs ds) :
      UnfoldsMembers e h ((k, v) :: vs) ((k, d) :: ds)

end

end Emilua.Json
