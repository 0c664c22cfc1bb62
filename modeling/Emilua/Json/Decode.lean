import Emilua.Builder

/-!
`json.decode`: the loop over the tokens of the reader. Beside the current item
it keeps the tables still open in another table, and a path with the key or the
index that each of them is at.
-/
namespace Emilua.Json
open Wire Keyed

/-- What `reader.value` throws. -/
inductive NumberError where
  | invalidValue
  | other (code : Nat)
deriving DecidableEq, Repr

/-- A symbol of the reader, with its value. -/
inductive Token where
  | boolean (b : Bool)
  | integer (val : Except NumberError Int64)
  | real (val : Except NumberError UInt64)
  | string (s : Bytes)
  | key (s : Bytes)
  | null
  | beginArray
  | beginObject
  | endArray
  | endObject

/-- `std::variant<std::string, array_key_type>`. -/
inductive PathKey where
  | key (s : Bytes)
  | index (n : Nat)
deriving DecidableEq, Repr

inductive JsonErrc where
  | resultOutOfRange
  | tooManyLevels
  | arrayTooLong
  | cycleExists
deriving DecidableEq, Repr

inductive Failure where
  | reader (code : Nat)
  | insufficientTokens
  | number (code : Nat) (path : List PathKey)
  | dom (ec : JsonErrc) (path : List PathKey)
  | tooManyLevels
deriving DecidableEq, Repr

inductive Scalar where
  | boolean (b : Bool)
  | integer (i : Int64)
  | real (bits : UInt64)
  | string (s : Bytes)
  | null
deriving DecidableEq, Repr

/-- The double that an integer becomes, and the table that is `json.null`. -/
structure Env where
  ofInteger : Int64 → UInt64
  null : Nat

def Env.value (env : Env) : Scalar → LuaVal
  | .boolean b => .boolean b
  | .integer i => .number (env.ofInteger i)
  | .real bits => .number bits
  | .string s => .string s
  | .null => .table env.null

/-- The Lua stack, and the path with its innermost level first. -/
structure Decoder where
  L : LuaState
  path : List PathKey

def arrayKeyMax : Nat := 2147483647

/-- `append_path_info_to_exception`: of an array the element that is next. -/
def pathInfo (path : List PathKey) : List PathKey :=
  path.reverse.map fun
    | .key s => .key s
    | .index n => .index (n + 1)

def tagged (h : Heap) (t : Nat) : Heap := { h with tables := h.tables.modify t fun x => { x with metatable := true } }

/-- The table on top is given the metatable of arrays. -/
def setArray (L : LuaState) : Option LuaState :=
  match L.stack with
  | .table t :: _ => some { L with heap := tagged L.heap t }
  | _ => none

def onLeaf (env : Env) (d : Decoder) (a : Scalar) : Option (Except Failure Decoder) :=
  match d.path with
  | [] => do
      let L ← d.L.pop 1
      some (.ok ⟨L.push (env.value a), []⟩)
  | .key s :: path => do
      let L ← ((d.L.push (.string s)).push (env.value a)).rawset 3
      some (.ok ⟨L, .key s :: path⟩)
  | .index n :: path =>
      if n = arrayKeyMax then some (.error (.dom .arrayTooLong (pathInfo path)))
      else do
        let L ← (d.L.push (env.value a)).rawseti 2 (n + 1)
        some (.ok ⟨L, .index (n + 1) :: path⟩)

def onNumber {α : Type} (env : Env) (d : Decoder) (leaf : α → Scalar) :
    Except NumberError α → Option (Except Failure Decoder)
  | .ok a => onLeaf env d (leaf a)
  | .error .invalidValue => some (.error (.dom .resultOutOfRange (pathInfo d.path)))
  | .error (.other code) => some (.error (.number code (pathInfo d.path)))

/-- The new table becomes a field of the current item. -/
def attach (L : LuaState) : List PathKey → Option (Except Failure (LuaState × List PathKey))
  | [] => some (.ok (L, []))
  | .key s :: path => do
      let L ← L.pushvalue 1
      let L ← (L.push (.string s)).insert 2
      let L ← L.rawset 4
      some (.ok (L, .key s :: path))
  | .index n :: path => do
      let L ← L.pushvalue 1
      if n = arrayKeyMax then some (.error (.dom .arrayTooLong (pathInfo path)))
      else do
        let L ← L.rawseti 3 (n + 1)
        some (.ok (L, .index (n + 1) :: path))

def beginNode (array : Bool) (d : Decoder) : Option (Except Failure Decoder) :=
  if d.path.length = arrayKeyMax then some (.error .tooManyLevels)
  else do
    match ← attach d.L.newtable d.path with
    | .error e => some (.error e)
    | .ok (L, path) => do
        let L ← (if array then setArray L else some L)
        let path := (if array then .index 0 else .key []) :: path
        let L ← L.remove 2
        let L ← L.pushvalue 1
        let L ← L.rawseti 3 path.length
        some (.ok ⟨L, path⟩)

def endNode (d : Decoder) : Option (Except Failure Decoder) :=
  match d.path with
  | [] => none
  | [_] => some (.ok ⟨d.L, []⟩)
  | _ :: key :: path => do
      let L ← d.L.pop 1
      let L ← (L.push .nil).rawseti 2 (path.length + 2)
      let L ← L.rawgeti 1 (path.length + 1)
      some (.ok ⟨L, key :: path⟩)

/-- One turn of the loop. -/
def Token.step (env : Env) (d : Decoder) : Token → Option (Except Failure Decoder)
  | .boolean b => onLeaf env d (.boolean b)
  | .integer val => onNumber env d .integer val
  | .real val => onNumber env d .real val
  | .string s => onLeaf env d (.string s)
  | .key s =>
      match d.path with
      | [] => none
      | _ :: path => some (.ok ⟨d.L, .key s :: path⟩)
  | .null => onLeaf env d .null
  | .beginArray => beginNode true d
  | .beginObject => beginNode false d
  | .endArray | .endObject => endNode d

def decodeTokens (env : Env) : List Token → Decoder → Option (Except Failure Decoder)
  | [], d => some (.ok d)
  | t :: ts, d =>
      match t.step env d with
      | some (.ok d) => decodeTokens env ts d
      | r => r

/-- `decode`, of a string that has these tokens before its end or an error. The
result is on top of the stack. -/
def decode (env : Env) (L : LuaState) (tokens : List Token) (error : Option Nat) : Option (Except Failure Decoder) :=
  match tokens, error with
  | [], none => some (.error .insufficientTokens)
  | [], some code => some (.error (.reader code))
  | ts, error => do
      match ← decodeTokens env ts ⟨L.newtable.push .nil, []⟩, error with
      | .ok _, some code => some (.error (.reader code))
      | r, _ => some r

/-! Documents. -/

inductive Doc where
  | leaf (a : Scalar)
  | array (es : List Doc)
  | object (ms : List (Bytes × Doc))

def Scalar.token : Scalar → Token
  | .boolean b => .boolean b
  | .integer i => .integer (.ok i)
  | .real bits => .real (.ok bits)
  | .string s => .string s
  | .null => .null

mutual

/-- What the reader produces for a document. -/
def Doc.tokens : Doc → List Token
  | .leaf a => [a.token]
  | .array es => .beginArray :: (arrayTokens es ++ [.endArray])
  | .object ms => .beginObject :: (objectTokens ms ++ [.endObject])

def arrayTokens : List Doc → List Token
  | [] => []
  | e :: es => e.tokens ++ arrayTokens es

def objectTokens : List (Bytes × Doc) → List Token
  | [] => []
  | (k, v) :: ms => .key k :: (v.tokens ++ objectTokens ms)

end

mutual

def Doc.tree : Doc → Tree LuaVal Scalar Bool
  | .leaf a => .leaf a
  | .array es => .node true (treeElements 0 es)
  | .object ms => .node false (treeMembers ms)

/-- Element `i` of an array is its field `i + 1`. -/
def treeElements : Nat → List Doc → Forest LuaVal Scalar Bool
  | _, [] => .nil
  | i, e :: es => .cons (.index (i + 1)) e.tree (treeElements (i + 1) es)

def treeMembers : List (Bytes × Doc) → Forest LuaVal Scalar Bool
  | [] => .nil
  | (k, v) :: ms => .cons (.string k) v.tree (treeMembers ms)

end

mutual

/-- No array has more elements than can be counted. -/
def Doc.Short : Doc → Prop
  | .leaf _ => True
  | .array es => es.length ≤ arrayKeyMax ∧ shortElements es
  | .object ms => shortMembers ms

def shortElements : List Doc → Prop
  | [] => True
  | e :: es => e.Short ∧ shortElements es

def shortMembers : List (Bytes × Doc) → Prop
  | [] => True
  | (_, v) :: ms => v.Short ∧ shortMembers ms

end

end Emilua.Json
