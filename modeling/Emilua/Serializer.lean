import Emilua.Json.Encode
import Emilua.Lib.Iterate
import Emilua.Value

/-!
The table case of `chan_send`: the loop that builds a message from a table, and
the recursion that says what the message is.

The loop keeps a table of the tables it is inside of, a table with one work item
for every level, the table it is at, and in an object the key it is at. Of the
DOM a level keeps its container, which is put in its place when the level is
closed.
-/
namespace Emilua
open Wire

/-- The natural number in a double that holds a small one. -/
def natOfDouble (bits : UInt64) : Nat :=
  if bits.toNat = 0 then 0
  else 2 ^ (bits.toNat / 2 ^ 52 - 1023) + bits.toNat % 2 ^ 52 / 2 ^ (52 - (bits.toNat / 2 ^ 52 - 1023))

/-- `lua_tointeger`. -/
def LuaVal.toInteger : LuaVal → Nat
  | .number bits => natOfDouble bits
  | _ => 0

namespace LuaTable

/-- The fields that `lua_next` visits, in its order. -/
def pairs (t : LuaTable) : List (LuaVal × LuaVal) :=
  (t.fields.entries.map fun f => (f.1, f.2)).filter fun f => f.1 ≠ .nil ∧ f.2 ≠ .nil

/-- The fields that follow a key. -/
def after (t : LuaTable) : LuaVal → Option (List (LuaVal × LuaVal))
  | .nil => some t.pairs
  | key => (t.pairs.dropWhile fun f => f.1 ≠ key).tail?

end LuaTable

/-- `lua_next`: the key on top gives way to the field that follows, if there is one. -/
def LuaState.next (L : LuaState) (i : Nat) : Option (LuaState × Bool) :=
  match L.stack, L.at? i with
  | key :: rest, some (.table t) =>
      match (Json.table L.heap t).after key with
      | some ((k, v) :: _) => some (⟨v :: k :: rest, L.heap⟩, true)
      | some [] => some (⟨rest, L.heap⟩, false)
      | none => none
  | _, _ => none

inductive SerializeError where
  | invalidArgument
  | json (ec : Json.JsonErrc)
  | system (errno : Nat)
deriving DecidableEq, Repr

/-- The VM that sends, the border that `lua_objlen` finds in a table, and what
each call of `dup` comes to. -/
structure SenderEnv where
  self : VmId
  objlen : Nat → Nat
  dup : Nat → Int → Except Nat Int

def assignKey (m : List (Bytes × Value)) (k : Bytes) (v : Value) : List (Bytes × Value) :=
  m.map fun e => if e.1 = k then (e.1, v) else e

def eraseKey (m : List (Bytes × Value)) (k : Bytes) : List (Bytes × Value) := m.filter fun e => e.1 ≠ k

/-- What a `dom_reference` points to. The current value of an object is that of
key `obj_it`; of an array it is the last one. -/
inductive DomNode where
  | object (m : List (Bytes × Value)) (it : Bytes)
  | array (a : List Value)

namespace DomNode

def value : DomNode → Value
  | .object m _ => .object m
  | .array a => .array a

def isArray : DomNode → Bool
  | .object _ _ => false
  | .array _ => true

/-- `cur_value->emplace`. -/
def put (v : Value) : DomNode → DomNode
  | .object m it => .object (assignKey m it v) it
  | .array a => .array (a.dropLast ++ [v])

end DomNode

def nodeIdx : Nat := 1

def iterIdx : Nat := 2

/-- The back of `dom_stack` comes first. -/
structure Serializer where
  L : LuaState
  domStack : List DomNode
  currentArrayIdx : Nat
  dups : Nat

abbrev Outcome := Except SerializeError (LuaState × Value × Nat)

namespace Serializer

/-- `update_lua_ctx_on_level_popped`. -/
def updateLuaCtxOnLevelPopped (s : Serializer) : Option Serializer := do
  let L ← (s.L.push .nil).rawset 4
  let L ← (L.push .nil).rawseti 2 (s.domStack.length + 1)
  let L ← L.rawgeti 1 s.domStack.length
  let L ← L.rawgeti 1 nodeIdx
  let L ← L.rawgeti 2 iterIdx
  let L ← L.remove 3
  match s.domStack with
  | .array _ :: _ => do
      let idx ← L.at? 1
      let L ← L.pop 1
      some { s with L := L, currentArrayIdx := idx.toInteger }
  | _ => some { s with L := L }

/-- `dom_stack.pop_back()`, and what is left when it gets empty. -/
def closeNode (s : Serializer) : Option (Serializer ⊕ Outcome) :=
  match s.domStack with
  | [] => none
  | [node] => do
      let L ← s.L.pop 3
      some (.inr (.ok (L, node.value, s.dups)))
  | node :: parent :: outer => do
      let s ← updateLuaCtxOnLevelPopped { s with domStack := parent.put node.value :: outer }
      some (.inl s)

/-- `ignore_cur_item`. -/
def ignoreCurItem (s : Serializer) : Option (Serializer ⊕ Outcome) := do
  let L ← s.L.pop 1
  match s.domStack with
  | .array a :: outer => closeNode { s with L := L, domStack := .array a.dropLast :: outer }
  | .object m it :: outer => some (.inl { s with L := L, domStack := .object (eraseKey m it) it :: outer })
  | [] => none

/-- The current value is a leaf, which is popped with what it was compared with. -/
def putCurValue (s : Serializer) (v : Value) : Option (Serializer ⊕ Outcome) := do
  let L ← s.L.pop 1
  match s.domStack with
  | node :: outer => some (.inl { s with L := L, domStack := node.put v :: outer })
  | [] => none

/-- The table on top is the one to be iterated. -/
def openNode (env : SenderEnv) (s : Serializer) : Option Serializer :=
  match s.L.at? 1 with
  | some (.table t) =>
      if 0 < env.objlen t then some { s with domStack := .array [] :: s.domStack, currentArrayIdx := 0 }
      else some { s with L := s.L.push .nil, domStack := .object [] [] :: s.domStack }
  | _ => none

/-- A table without a metatable, which is on top. -/
def enterTable (env : SenderEnv) (s : Serializer) (node : DomNode) : Option (Serializer ⊕ Outcome) := do
  let visitedIdx := if node.isArray then 4 else 5
  let L ← s.L.pushvalue 1
  let L ← L.rawget (visitedIdx + 1)
  match L.at? 1 with
  | some (.boolean _) => some (.inr (.error (.json .cycleExists)))
  | some .nil => do
      let L ← L.pop 1
      let L ← L.pushvalue 1
      let L ← (L.push (.boolean true)).rawset (visitedIdx + 2)
      if s.domStack.length = Json.arrayKeyMax then some (.inr (.error (.json .tooManyLevels)))
      else do
        -- save current iterator
        let L ← L.rawgeti (if node.isArray then 3 else 4) s.domStack.length
        let L ← if node.isArray then some (L.push (.index s.currentArrayIdx)) else L.pushvalue 3
        let L ← L.rawseti 2 iterIdx
        let L ← L.pop 1
        let L ← if node.isArray then some L else L.remove 2
        let L ← L.remove 2
        let L ← L.newtable.pushvalue 2
        let L ← L.rawseti 2 nodeIdx
        let L ← L.rawseti 3 (s.domStack.length + 1)
        let s ← openNode env { s with L := L }
        some (.inl s)
  | _ => none

/-- The switch over the type of the value on top. A `cdata` is none of its cases. -/
def handleItem (env : SenderEnv) (s : Serializer) : Option (Serializer ⊕ Outcome) := do
  let node ← s.domStack.head?
  match ← s.L.at? 1 with
  | .nil => none
  | .userdata ref =>
      match s.L.heap.userdata[ref]? with
      | some (.txChan dest) => putCurValue s (.address dest)
      | some .inbox => putCurValue s (.address (some env.self))
      | some (.fileDescriptor fd) =>
          if fd = -1 then ignoreCurItem s
          else
            match env.dup s.dups fd with
            | .ok newfd => putCurValue { s with dups := s.dups + 1 } (.fileDescriptor newfd)
            | .error errno => some (.inr (.error (.system errno)))
      | _ => ignoreCurItem s
  | .function _ | .thread _ | .lightuserdata _ => ignoreCurItem s
  | .number bits => putCurValue s (.number bits)
  | .boolean b => putCurValue s (.boolean b)
  | .string str => putCurValue s (.string str)
  | .table t => if (Json.table s.L.heap t).metatable then ignoreCurItem s else enterTable env s node
  | .cdata _ => some (.inl s)

/-- One turn of the loop. -/
def turn (env : SenderEnv) (s : Serializer) : Option (Serializer ⊕ Outcome) :=
  match s.domStack with
  | [] => none
  | .array a :: outer =>
      if s.currentArrayIdx = Json.arrayKeyMax then some (.inr (.error (.json .arrayTooLong)))
      else do
        let L ← s.L.rawgeti 1 (s.currentArrayIdx + 1)
        let s := { s with currentArrayIdx := s.currentArrayIdx + 1 }
        match ← L.at? 1 with
        | .nil => do
            let L ← L.pop 1
            closeNode { s with L := L }
        | _ => handleItem env { s with L := L, domStack := .array (a ++ [.boolean false]) :: outer }
  | .object m it :: outer => do
      match ← s.L.next 2 with
      | (L, false) => closeNode { s with L := L }
      | (L, true) =>
          match ← L.at? 2 with
          | .string k => handleItem env { s with L := L, domStack := .object (emplace m k (.boolean false)) k :: outer }
          | _ => do
              let L ← L.pop 1
              some (.inl { s with L := L, domStack := .object m it :: outer })

end Serializer

/-- What is done before the loop. -/
def serializeStart (env : SenderEnv) (L : LuaState) (t : Nat) : Option Serializer := do
  let L ← ((L.newtable.push (.table t)).push (.boolean true)).rawset 3
  let L := L.newtable.push (.table t)
  let L ← L.newtable.pushvalue 2
  let L ← L.rawseti 2 nodeIdx
  let L ← L.rawseti 3 1
  Serializer.openNode env ⟨L, [], 0, 0⟩

/-- The case of a table. -/
def serialize (env : SenderEnv) (fuel : Nat) (L : LuaState) (t : Nat) : Option Outcome :=
  if (Json.table L.heap t).metatable then some (.error .invalidArgument)
  else (serializeStart env L t).bind (Iterate.run (Serializer.turn env) fuel)

/-! What the message is. -/

/-- A graph of values as a program can build it: no reference dangles, and a
table has fewer fields than an array may have elements. -/
structure Graph where
  heap : Heap
  root : Nat
  root_lt : root < heap.tables.length
  closed : ∀ x ∈ heap.tables, ∀ f ∈ x.fields.entries, ∀ t, f.2 = .table t → t < heap.tables.length
  small : ∀ x ∈ heap.tables, x.fields.entries.length < Json.arrayKeyMax

/-- What a value is for the message that its table is sent in. -/
inductive Item where
  | leaf (v : Value)
  | descriptor (fd : Int)
  | table (t : Nat)
  | unsendable
  | cdata

def SenderEnv.item (env : SenderEnv) (h : Heap) : LuaVal → Item
  | .boolean b => .leaf (.boolean b)
  | .number bits => .leaf (.number bits)
  | .string str => .leaf (.string str)
  | .userdata ref =>
      match h.userdata[ref]? with
      | some (.txChan dest) => .leaf (.address dest)
      | some .inbox => .leaf (.address (some env.self))
      | some (.fileDescriptor fd) => if fd = -1 then .unsendable else .descriptor fd
      | _ => .unsendable
  | .table t => if (Json.table h t).metatable then .unsendable else .table t
  | .nil | .function _ | .thread _ | .lightuserdata _ => .unsendable
  | .cdata _ => .cdata

inductive Halt where
  | raised (e : SerializeError)
  | cdata
deriving DecidableEq, Repr

section
variable (env : SenderEnv) (h : Heap) (strict : Bool) (recur : List Nat → Nat → Nat → Except Halt (Value × Nat))
  (path : List Nat)

/-- The value of a field or an element, below the tables of the path. A `cdata`
is as unsendable as a function, but the strict recursion stops there. -/
def child (dups : Nat) (v : LuaVal) : Except Halt (Option Value × Nat) :=
  match env.item h v with
  | .leaf x => .ok (some x, dups)
  | .descriptor fd =>
      match env.dup dups fd with
      | .ok newfd => .ok (some (.fileDescriptor newfd), dups + 1)
      | .error errno => .error (.raised (.system errno))
  | .table t =>
      if t ∈ path then .error (.raised (.json .cycleExists))
      else (recur path dups t).map fun r => (some r.1, r.2)
  | .unsendable => .ok (none, dups)
  | .cdata => if strict then .error .cdata else .ok (none, dups)

/-- An array is cut at its first element that cannot be sent. -/
def elements : List LuaVal → List Value → Nat → Except Halt (Value × Nat)
  | [], a, dups => .ok (.array a, dups)
  | v :: vs, a, dups => do
      match ← child env h strict recur path dups v with
      | (some x, dups) => elements vs (a ++ [x]) dups
      | (none, dups) => .ok (.array a, dups)

/-- An object has the string keys whose values can be sent. -/
def members : List (LuaVal × LuaVal) → List (Bytes × Value) → Nat → Except Halt (Value × Nat)
  | [], m, dups => .ok (.object m, dups)
  | (.string k, v) :: fs, m, dups => do
      match ← child env h strict recur path dups v with
      | (some x, dups) => members fs (emplace m k x) dups
      | (none, dups) => members fs m dups
  | _ :: fs, m, dups => members fs m dups

def contents (dups t : Nat) : Except Halt (Value × Nat) :=
  if 0 < env.objlen t then elements env h strict recur (t :: path) (Json.ipairs (Json.table h t)) [] dups
  else members env h strict recur (t :: path) (Json.table h t).pairs [] dups

/-- The message of a table, below which there is room for so many levels. -/
def message : Nat → List Nat → Nat → Nat → Except Halt (Value × Nat)
  | 0 => contents env h strict fun _ _ _ => .error (.raised (.json .tooManyLevels))
  | room + 1 => contents env h strict (message room)

end

/-- The recursive specification of what a graph is sent as. -/
def specification (env : SenderEnv) (strict : Bool) (g : Graph) : Except Halt (Value × Nat) :=
  if (Json.table g.heap g.root).metatable then .error (.raised .invalidArgument)
  else message env g.heap strict (Json.arrayKeyMax - 1) [] 0 g.root

end Emilua
