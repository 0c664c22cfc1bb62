import Emilua.Lib.Transition
import Emilua.Bytes.Regex

/-!
All the spans of a VM. Every operation that makes a span asks Lua for the
object, gives it the metatable and then runs the constructor in it; where the
constructor throws, the object is left as it is.
-/
namespace Emilua.Bytes
open Transition

/-- An object with the metatable of `byte_span`; `raw` if its constructor has
not been through. -/
inductive Object where
  | raw
  | span (bs : Span)
deriving DecidableEq, Repr

structure Table where
  mem : Memory
  objects : List Object
deriving DecidableEq, Repr

/-- What a program passes. -/
inductive Ref where
  | nil
  | number (n : LuaInteger)
  | string (s : List UInt8)
  | object (i : Nat)
  | other

/-- What a program gets. -/
inductive Result where
  | nil
  | integer (n : Int)
  | boolean (b : Bool)
  | string (s : List UInt8)
  | object (i : Nat)
  | subject
deriving DecidableEq, Repr

structure Env (R : Type) where
  junk : Nat → Nat → UInt8
  grants : Nat → Bool
  engine : Engine R

inductive Search where
  | find
  | rfind
  | findFirstOf
  | findLastOf
  | findFirstNotOf
  | findLastNotOf
deriving DecidableEq, Repr

inductive Action (R : Type) where
  | new (length capacity : Ref)
  | slice (self start stop : Ref)
  | copy (self src : Ref)
  | append (self : Ref) (args : List Ref)
  | appendFree (args : List Ref)
  | startsWith (self src : Ref)
  | endsWith (self src : Ref)
  | search (which : Search) (self pat pos : Ref)
  | trimmed (self lws : Ref)
  | regexMatch (r : Option R) (subject flags : Ref)
  | regexSplit (r : Option R) (subject : Ref)
  | regexPatsplit (r : Option R) (subject : Ref)

namespace Table

def resolve (s : Table) : Ref → Arg
  | .nil => .nil
  | .number n => .number n
  | .string x => .string x
  | .object i =>
      match s.objects[i]? with
      | some (.span bs) => .span bs
      | _ => .other
  | .other => .other

def push (s : Table) (o : Object) : Table := { s with objects := s.objects ++ [o] }

end Table

def Search.run : Search → Memory → Span → Arg → Arg → Except Error (Option Int)
  | .find => byteSpanFind
  | .rfind => byteSpanRfind
  | .findFirstOf => byteSpanFindFirstOf
  | .findLastOf => byteSpanFindLastOf
  | .findFirstNotOf => byteSpanFindFirstNotOf
  | .findLastNotOf => byteSpanFindLastNotOf

section
variable {R : Type} (env : Env R)

/-- `lua_newuserdata`, `setmetatable` and the constructor. -/
def build (s : Table) (c : Construct) : Table × Except Error Span :=
  match c with
  | .share bs => (s.push (.span bs), .ok bs)
  | .allocate _ capacity =>
      if env.grants capacity.toNat then
        let (m, bs) := c.run env.junk s.mem
        (({ s with mem := m } : Table).push (.span bs), .ok bs)
      else (s.push .raw, .error .badAlloc)

/-- One object is made and returned. -/
def buildResult (s : Table) (c : Construct) : Table × Except Error (List Result) :=
  let (s', bs) := build env s c
  (s', bs.map fun _ => [.object s.objects.length])

/-- The objects of a regex operation are made one after the other. -/
def pushValues (s : Table) : List Value → Table × List Result
  | [] => (s, [])
  | .nil :: vs => (pushValues s vs).map id (.nil :: ·)
  | .subject :: vs => (pushValues s vs).map id (.subject :: ·)
  | .string x :: vs => (pushValues s vs).map id (.string x :: ·)
  | .span bs :: vs => (pushValues (s.push (.span bs)) vs).map id (.object s.objects.length :: ·)

def pushResults (s : Table) : Except Error (List Value) → Table × Except Error (List Result)
  | .ok vs =>
      let (s', rs) := pushValues s vs
      (s', .ok rs)
  | .error e => (s, .error e)

/-- The method is called on a span. -/
def withSelf (s : Table) (self : Ref) (k : Span → Table × Except Error (List Result)) :
    Table × Except Error (List Result) :=
  match s.resolve self with
  | .span bs => k bs
  | _ => (s, .error (.invalidArgument (some 1)))

def withRegex (s : Table) (r : Option R) (k : R → Table × Except Error (List Result)) :
    Table × Except Error (List Result) :=
  match r with
  | some r => k r
  | none => (s, .error (.invalidArgument (some 1)))

/-- The call only reads. -/
def readOnly {α : Type} (s : Table) (x : Except Error α) (result : α → Result) : Table × Except Error (List Result) :=
  (s, x.map fun a => [result a])

def exec (s : Table) : Action R → Table × Except Error (List Result)
  | .new length capacity =>
      match byteSpanNew (s.resolve length) (s.resolve capacity) with
      | .ok c => buildResult env s c
      | .error e => (s, .error e)
  | .slice self start stop =>
      withSelf s self fun bs =>
        match byteSpanSlice bs (s.resolve start) (s.resolve stop) with
        | .ok bs' => buildResult env s (.share bs')
        | .error e => (s, .error e)
  | .copy self src =>
      withSelf s self fun bs =>
        match byteSpanCopy s.mem bs (s.resolve src) with
        | .ok (m, count) => ({ s with mem := m }, .ok [.integer count])
        | .error e => (s, .error e)
  | .append self args =>
      withSelf s self fun bs =>
        if args.isEmpty then (s, .ok [.subject])
        else
          match byteSpanMemberAppend bs (args.map s.resolve) with
          | .error e => (s, .error e)
          | .ok (c, tail) =>
              match build env s c with
              | (s', .ok dst) =>
                  ({ s' with mem := memberAppendWrites s'.mem bs dst c tail }, .ok [.object s.objects.length])
              | (s', .error e) => (s', .error e)
  | .appendFree args =>
      match byteSpanNonMemberAppend (args.map s.resolve) with
      | .error e => (s, .error e)
      | .ok (c, slices) =>
          match build env s c with
          | (s', .ok dst) => ({ s' with mem := appendViews dst.data 0 s'.mem slices }, .ok [.object s.objects.length])
          | (s', .error e) => (s', .error e)
  | .startsWith self src =>
      withSelf s self fun bs => readOnly s (byteSpanStartsWith s.mem bs (s.resolve src)) .boolean
  | .endsWith self src =>
      withSelf s self fun bs => readOnly s (byteSpanEndsWith s.mem bs (s.resolve src)) .boolean
  | .search which self pat pos =>
      withSelf s self fun bs =>
        readOnly s (which.run s.mem bs (s.resolve pat) (s.resolve pos)) fun i => i.elim .nil .integer
  | .trimmed self lws =>
      withSelf s self fun bs =>
        match byteSpanTrimmed s.mem bs (s.resolve lws) with
        | .ok bs' => buildResult env s (.share bs')
        | .error e => (s, .error e)
  | .regexMatch r subject flags =>
      withRegex s r fun r => pushResults s (regexMatch env.engine r s.mem (s.resolve subject) (s.resolve flags))
  | .regexSplit r subject =>
      withRegex s r fun r => pushResults s (regexSplit env.engine r s.mem (s.resolve subject))
  | .regexPatsplit r subject =>
      withRegex s r fun r => pushResults s (regexPatsplit env.engine r s.mem (s.resolve subject))

/-- The bytes that an operation asks the allocator for. -/
def requests (s : Table) : Action R → Option Nat
  | .new length capacity =>
      match byteSpanNew (s.resolve length) (s.resolve capacity) with
      | .ok (.allocate _ capacity) => some capacity.toNat
      | _ => none
  | .append self args =>
      match s.resolve self with
      | .span bs =>
          match byteSpanMemberAppend bs (args.map s.resolve) with
          | .ok (.allocate _ capacity, _) => some capacity.toNat
          | _ => none
      | _ => none
  | .appendFree args =>
      match byteSpanNonMemberAppend (args.map s.resolve) with
      | .ok (.allocate _ capacity, _) => some capacity.toNat
      | _ => none
  | _ => none

/-- The operation is given the memory it asks for. -/
def granted (s : Table) (a : Action R) : Prop := ∀ n, requests s a = some n → env.grants n = true

def Step (s : Table) (a : Action R) (s' : Table) : Prop := (exec env s a).1 = s'

def Initial (s : Table) : Prop := s = ⟨[], []⟩

theorem initial_self : Initial ⟨[], []⟩ := rfl

end

end Emilua.Bytes
