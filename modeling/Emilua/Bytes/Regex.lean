import Emilua.Bytes.Span

/-!
`regex.match`, `regex.split` and `regex.patsplit`. What `std::regex` finds is
given by an engine; that a match lies inside its subject is part of its type.
-/
namespace Emilua.Bytes

/-- A `sub_match` that has matched, in a subject of `n` bytes. -/
structure Range (n : Nat) where
  first : Nat
  second : Nat
  first_le : first ≤ second
  second_le : second ≤ n
deriving DecidableEq, Repr

structure SearchFlags where
  prevAvail : Bool
  notNull : Bool
  continuous : Bool
deriving DecidableEq, Repr

def SearchFlags.default : SearchFlags := ⟨false, false, false⟩

/-- `fullMatch` gives the groups from the first on, `search` the whole match at
or after a position, `tokens` what `cregex_token_iterator` goes through. -/
structure Engine (R : Type) where
  markCount : R → Nat
  fullMatch : R → (s : List UInt8) → Int → Option (List (Option (Range s.length)))
  search : R → (s : List UInt8) → Nat → SearchFlags → Option (Range s.length)
  tokens : R → (s : List UInt8) → List (Range s.length)
  search_from : ∀ r s it flags x, search r s it flags = some x → it ≤ x.first
  search_notNull : ∀ r s it flags x, search r s it flags = some x → flags.notNull = true → x.first < x.second

/-- What a call returns, before it is made an object. -/
inductive Value where
  | nil
  | subject
  | string (s : List UInt8)
  | span (bs : Span)
deriving DecidableEq, Repr

section
variable {R : Type} (e : Engine R) (r : R)

/-- A span over a part of `bs`. -/
def Span.sub (bs : Span) {n : Nat} (x : Range n) : Span :=
  ⟨bs.data.map (·.add x.first), (x.second : Int) - x.first, bs.capacity - x.first⟩

def View.sub (m : Memory) (v : View) : Range (v.read m).length → Value
  | x =>
      match v with
      | .literal s => .string ((s.drop x.first).take (x.second - x.first))
      | .window bs => .span (bs.sub x)

/-- A group that has not matched. -/
def View.unmatched : View → Value
  | .literal _ => .string []
  | .window _ => .span .null

def regexMatch (m : Memory) (subject flags : Arg) : Except Error (List Value) := do
  let str ← subject.view 2
  let flags ← flags.integer 3 0
  match e.fullMatch r (str.read m) flags with
  | none => .ok [.nil]
  | some groups =>
      if e.markCount r = 0 then .ok [.subject]
      else .ok (groups.map fun x => x.elim str.unmatched (str.sub m))

def regexSplit (m : Memory) (subject : Arg) : Except Error (List Value) := do
  let str ← subject.view 2
  if e.markCount r = 0 then .ok ((e.tokens r (str.read m)).map (str.sub m))
  else .error .notSupported

/-- The loop of `regex_patsplit`, with the match found last. -/
def patsplitLoop (s : List UInt8) (x : Range s.length) (flags : SearchFlags) : List (Range s.length) :=
  x :: if x.second = s.length then []
    else
      match _hy : if x.first = x.second then
          e.search r s x.second { flags with notNull := true, continuous := true } else none with
      | some y => patsplitLoop s y flags
      | none =>
          match _hz : e.search r s (x.second + 1) { flags with prevAvail := true } with
          | some y => patsplitLoop s y { flags with prevAvail := true }
          | none => []
termination_by s.length - x.second
decreasing_by
  · have hle := x.second_le
    have hend := y.second_le
    split at _hy
    · have hfrom := e.search_from r s _ _ y _hy
      have hnull := e.search_notNull r s _ _ y _hy rfl
      omega
    · cases _hy
  · have hle := x.second_le
    have hend := y.second_le
    have hfrom := e.search_from r s _ _ y _hz
    have hlen := y.first_le
    omega

def regexPatsplit (m : Memory) (subject : Arg) : Except Error (List Value) := do
  let str ← subject.view 2
  if e.markCount r = 0 then
    match e.search r (str.read m) 0 .default with
    | none => .ok []
    | some x => .ok ((patsplitLoop e r (str.read m) x .default).map (str.sub m))
  else .error .notSupported

end

end Emilua.Bytes
