import Mathlib.Tactic

/-!
`byte_span`: windows into shared allocations. A span has the address of its
first byte, a size and a capacity, all of type `lua_Integer`; slices of a span
have the same owner. The memory is a list of allocations.
-/
namespace Emilua.Bytes

def intMin : Int := -2 ^ 63

def intMax : Int := 2 ^ 63 - 1

/-- What `lua_tointeger` gives. -/
structure LuaInteger where
  val : Int
  ge : intMin ≤ val
  le : val ≤ intMax

inductive Error where
  | invalidArgument (arg : Option Nat)
  | resultOutOfRange
  | notSupported
  | overflow
  | badAlloc
deriving DecidableEq, Repr

structure Ptr where
  block : Nat
  offset : Nat
deriving DecidableEq, Repr

def Ptr.add (p : Ptr) (n : Nat) : Ptr := { p with offset := p.offset + n }

/-- `byte_span_handle`. -/
structure Span where
  data : Option Ptr
  size : Int
  capacity : Int
deriving DecidableEq, Repr

def Span.null : Span := ⟨none, 0, 0⟩

abbrev Memory := List (List UInt8)

/-- The bytes of `src` replace those from `offset` on. -/
def splice (xs : List UInt8) (offset : Nat) (src : List UInt8) : List UInt8 :=
  xs.take offset ++ src ++ xs.drop (offset + src.length)

namespace Memory

def block (m : Memory) (i : Nat) : List UInt8 := m[i]?.getD []

def read (m : Memory) : Option Ptr → Nat → List UInt8
  | none, _ => []
  | some p, n => ((m.block p.block).drop p.offset).take n

/-- `memmove` and `memcpy`. -/
def write (m : Memory) : Option Ptr → List UInt8 → Memory
  | none, _ => m
  | some p, src => m.modify p.block fun xs => splice xs p.offset src

/-- `make_shared_for_overwrite`: the new bytes are whatever `junk` says. -/
def alloc (junk : Nat → Nat → UInt8) (m : Memory) (n : Nat) : Memory × Ptr :=
  (m ++ [(List.range n).map (junk m.length)], ⟨m.length, 0⟩)

end Memory

/-- `string_view`, of a string or of a span. -/
inductive View where
  | literal (s : List UInt8)
  | window (bs : Span)
deriving DecidableEq, Repr

def View.size : View → Nat
  | .literal s => s.length
  | .window bs => bs.size.toNat

def Span.read (m : Memory) (bs : Span) : List UInt8 := m.read bs.data bs.size.toNat

def View.read (m : Memory) : View → List UInt8
  | .literal s => s
  | .window bs => bs.read m

/-- An argument, after the look at its type. -/
inductive Arg where
  | nil
  | number (n : LuaInteger)
  | string (s : List UInt8)
  | span (bs : Span)
  | other

/-- A number, or nil for the default. -/
def Arg.integer (pos : Nat) (default : Int) : Arg → Except Error Int
  | .number n => .ok n.val
  | .nil => .ok default
  | _ => .error (.invalidArgument (some pos))

/-- A string or a span. -/
def Arg.view (pos : Nat) : Arg → Except Error View
  | .string s => .ok (.literal s)
  | .span bs => .ok (.window bs)
  | _ => .error (.invalidArgument (some pos))

/-- A string, a span, or nil for the default. -/
def Arg.viewOr (pos : Nat) (default : List UInt8) : Arg → Except Error View
  | .nil => .ok (.literal default)
  | x => x.view pos

/-- The two constructors of `byte_span_handle`: one takes its bytes from
elsewhere, the other allocates them. -/
inductive Construct where
  | share (bs : Span)
  | allocate (size capacity : Int)
deriving DecidableEq, Repr

def Construct.run (junk : Nat → Nat → UInt8) (m : Memory) : Construct → Memory × Span
  | .share bs => (m, bs)
  | .allocate size capacity =>
      let (m, p) := m.alloc junk capacity.toNat
      (m, ⟨some p, size, capacity⟩)

def newSpan (length capacity : Int) : Except Error Construct :=
  if length < 0 ∨ capacity < 0 ∨ length > capacity then .error (.invalidArgument none)
  else if capacity = 0 then .ok (.share .null)
  else .ok (.allocate length capacity)

def byteSpanNew (length capacity : Arg) : Except Error Construct := do
  let length ← match length with
    | .number n => .ok n.val
    | _ => .error (.invalidArgument none)
  let capacity ← match capacity with
    | .nil => .ok length
    | .number n => .ok n.val
    | _ => .error (.invalidArgument none)
  newSpan length capacity

def Span.slice (bs : Span) (start stop : Int) : Except Error Span :=
  if start < 1 ∨ start - 1 > stop ∨ stop > bs.capacity then .error .resultOutOfRange
  else if bs.capacity - start + 1 = 0 then .ok .null
  else .ok ⟨bs.data.map (·.add (start - 1).toNat), stop - start + 1, bs.capacity - start + 1⟩

def byteSpanSlice (bs : Span) (start stop : Arg) : Except Error Span := do
  let start ← start.integer 2 1
  let stop ← stop.integer 3 bs.size
  bs.slice start stop

def Span.copy (m : Memory) (bs : Span) (src : View) : Memory × Int :=
  let count := min src.size bs.size.toNat
  (if count ≠ 0 then m.write bs.data ((src.read m).take count) else m, count)

def byteSpanCopy (m : Memory) (bs : Span) (src : Arg) : Except Error (Memory × Int) := do
  let src ← src.view 2
  .ok (bs.copy m src)

/-! `append`. -/

/-- `total_size += s.size()` with `safe<lua_Integer>`. -/
def addSizes : Int → List View → Except Error Int
  | total, [] => .ok total
  | total, v :: vs => if total + v.size ≤ intMax then addSizes (total + v.size) vs else .error .overflow

/-- The arguments from number `pos` on. -/
def tailSlices (pos : Nat) : List Arg → Except Error (List View)
  | [] => .ok []
  | x :: xs => do
      let v ← x.viewOr pos []
      let vs ← tailSlices (pos + 1) xs
      .ok (v :: vs)

/-- The loop that copies the views one after the other. -/
def appendViews (dst : Option Ptr) (idx : Nat) (m : Memory) : List View → Memory
  | [] => m
  | v :: vs =>
      if v.size = 0 then appendViews dst idx m vs
      else appendViews dst (idx + v.size) (m.write (dst.map (·.add idx)) (v.read m)) vs

/-- The span that `append` makes and the views that it copies into it. -/
def byteSpanMemberAppend (bs : Span) (args : List Arg) : Except Error (Construct × List View) := do
  let tail ← tailSlices 2 args
  let total ← addSizes bs.size tail
  if total = 0 then .ok (.share .null, [])
  else if bs.capacity ≥ total then .ok (.share ⟨bs.data, total, bs.capacity⟩, tail)
  else .ok (.allocate total total, tail)

/-- What `append` writes once its result `dst` exists. -/
def memberAppendWrites (m : Memory) (bs dst : Span) (c : Construct) (tail : List View) : Memory :=
  let m := match c with
    | .share _ => m
    | .allocate _ _ => if bs.size > 0 then m.write dst.data (bs.read m) else m
  appendViews dst.data bs.size.toNat m tail

def byteSpanNonMemberAppend (args : List Arg) : Except Error (Construct × List View) := do
  let slices ← tailSlices 1 args
  let total ← addSizes 0 slices
  if total = 0 then .ok (.share .null, [])
  else .ok (.allocate total total, slices)

/-! Searches. -/

def firstIndex (n : Nat) (p : Nat → Bool) : Option Nat := (List.range n).find? p

def lastIndex (n : Nat) (p : Nat → Bool) : Option Nat := (List.range n).reverse.find? p

/-- `string_view::find` and its kin. -/
def find (s pat : List UInt8) (pos : Nat) : Option Nat :=
  firstIndex (s.length + 1) fun i => pos ≤ i && pat.isPrefixOf (s.drop i)

def rfind (s pat : List UInt8) (pos : Nat) : Option Nat :=
  lastIndex (s.length + 1) fun i => i ≤ pos && pat.isPrefixOf (s.drop i)

def findFirstOf (s pat : List UInt8) (pos : Nat) : Option Nat :=
  firstIndex s.length fun i => pos ≤ i && s[i]?.any (· ∈ pat)

def findLastOf (s pat : List UInt8) (pos : Nat) : Option Nat :=
  lastIndex s.length fun i => i ≤ pos && s[i]?.any (· ∈ pat)

def findFirstNotOf (s pat : List UInt8) (pos : Nat) : Option Nat :=
  firstIndex s.length fun i => pos ≤ i && s[i]?.any (· ∉ pat)

def findLastNotOf (s pat : List UInt8) (pos : Nat) : Option Nat :=
  lastIndex s.length fun i => i ≤ pos && s[i]?.any (· ∉ pat)

/-- The searches from `start` on. -/
def Span.searchFrom (search : List UInt8 → List UInt8 → Nat → Option Nat) (m : Memory) (bs : Span) (pat : View)
    (start : Int) : Except Error (Option Int) :=
  if start < 1 ∨ start - 1 > bs.size then .error .resultOutOfRange
  else if start > bs.size then .ok none
  else .ok ((search (bs.read m) (pat.read m) (start - 1).toNat).map fun i : Nat => (i : Int) + 1)

/-- The searches from `stop` back. -/
def Span.searchBack (search : List UInt8 → List UInt8 → Nat → Option Nat) (m : Memory) (bs : Span) (pat : View)
    (stop : Int) : Except Error (Option Int) :=
  if stop < 0 ∨ stop > bs.size then .error .resultOutOfRange
  else if stop = 0 then .ok none
  else .ok ((search (bs.read m) (pat.read m) (stop - 1).toNat).map fun i : Nat => (i : Int) + 1)

def searchForward (search : List UInt8 → List UInt8 → Nat → Option Nat) (m : Memory) (bs : Span) (pat start : Arg) :
    Except Error (Option Int) := do
  let pat ← pat.viewOr 2 []
  let start ← start.integer 3 1
  bs.searchFrom search m pat start

def searchBackward (search : List UInt8 → List UInt8 → Nat → Option Nat) (m : Memory) (bs : Span) (pat stop : Arg) :
    Except Error (Option Int) := do
  let pat ← pat.viewOr 2 []
  let stop ← stop.integer 3 bs.size
  bs.searchBack search m pat stop

def byteSpanFind := searchForward find

def byteSpanRfind := searchBackward rfind

def byteSpanFindFirstOf := searchForward findFirstOf

def byteSpanFindLastOf := searchBackward findLastOf

def byteSpanFindFirstNotOf := searchForward findFirstNotOf

def byteSpanFindLastNotOf := searchBackward findLastNotOf

def byteSpanStartsWith (m : Memory) (bs : Span) (src : Arg) : Except Error Bool := do
  let src ← src.view 2
  .ok ((src.read m).isPrefixOf (bs.read m))

def byteSpanEndsWith (m : Memory) (bs : Span) (src : Arg) : Except Error Bool := do
  let src ← src.view 2
  .ok ((src.read m).isSuffixOf (bs.read m))

/-- `" \f\n\r\t\v"`. -/
def lws : List UInt8 := [32, 12, 10, 13, 9, 11]

def Span.trimmed (m : Memory) (bs : Span) (lws : View) : Span :=
  match findFirstNotOf (bs.read m) (lws.read m) 0, findLastNotOf (bs.read m) (lws.read m) (bs.read m).length with
  | some start, some stop =>
      ⟨bs.data.map (·.add start), (stop : Int) - start + 1, bs.capacity - start⟩
  | _, _ => .null

def byteSpanTrimmed (m : Memory) (bs : Span) (set : Arg) : Except Error Span := do
  let set ← set.viewOr 2 lws
  .ok (bs.trimmed m set)

end Emilua.Bytes
