import Mathlib.Data.List.AList
import Emilua.Lib.Wire

/-!
The part of the Lua side that the channel code observes: the type tag of a
value, the metatable a userdata was given, and raw table access. Tables and
userdata live in a heap because a file descriptor handle is read and reset
through every reference to it.

`cdata` is the tag LuaJIT gives to the values of its `ffi` module, which the
runtime exposes to programs beside the tags of plain Lua.
-/
namespace Emilua
open Wire

abbrev VmId := Nat

inductive LuaVal where
  | nil
  | boolean (b : Bool)
  | number (bits : UInt64)
  | string (s : Bytes)
  | table (ref : Nat)
  | userdata (ref : Nat)
  | function (ref : Nat)
  | thread (ref : Nat)
  | lightuserdata (ref : Nat)
  | cdata (ref : Nat)
deriving DecidableEq, Repr

/-- What the registry key of a userdata's metatable says about it. The weak
pointer of an in-process address is `none` once its VM is gone. -/
inductive Userdata where
  | bare
  | txChan (dest : Option VmId)
  | inbox
  | fileDescriptor (fd : Int)
  | ipcActorChan (fd : Int)
  | foreign
deriving DecidableEq, Repr

/-- Fields stand in the order `lua_next` visits them. -/
structure LuaTable where
  metatable : Bool
  fields : AList (fun _ : LuaVal => LuaVal)

structure Heap where
  tables : List LuaTable
  userdata : List Userdata

namespace Heap

def empty : Heap := ⟨[], []⟩

def newtable (h : Heap) : LuaVal × Heap :=
  (.table h.tables.length, { h with tables := h.tables ++ [⟨false, ∅⟩] })

def newuserdata (h : Heap) (u : Userdata) : LuaVal × Heap :=
  (.userdata h.userdata.length, { h with userdata := h.userdata ++ [u] })

def rawset (h : Heap) (ref : Nat) (key value : LuaVal) : Heap :=
  { h with tables := h.tables.modify ref fun t => { t with fields := t.fields.insert key value } }

def rawget (h : Heap) (ref : Nat) (key : LuaVal) : Option LuaVal :=
  h.tables[ref]?.bind fun t => t.fields.lookup key

@[simp] theorem rawset_userdata (h : Heap) (ref : Nat) (key value : LuaVal) :
    (h.rawset ref key value).userdata = h.userdata := rfl

@[simp] theorem rawset_tables_length (h : Heap) (ref : Nat) (key value : LuaVal) :
    (h.rawset ref key value).tables.length = h.tables.length := by
  simp [rawset]

@[simp] theorem newuserdata_tables (h : Heap) (u : Userdata) :
    (h.newuserdata u).2.tables = h.tables := rfl

theorem rawget_rawset (h : Heap) (ref : Nat) (key value : LuaVal) (hr : ref < h.tables.length)
    (key' : LuaVal) :
    (h.rawset ref key value).rawget ref key' =
      if key' = key then some value else h.rawget ref key' := by
  simp only [rawget, rawset, List.getElem?_modify_eq, List.getElem?_eq_getElem hr,
    Option.bind_some]
  by_cases hk : key' = key
  · subst hk; simp
  · simp [hk, AList.lookup_insert_ne hk]

theorem rawget_newtable (h : Heap) (key : LuaVal) :
    h.newtable.2.rawget h.tables.length key = none := by
  simp [rawget, newtable]

end Heap

/-- A value that is not itself a table, as a program can tell it apart. -/
inductive Leaf where
  | boolean (b : Bool)
  | number (bits : UInt64)
  | string (s : Bytes)
  | fileDescriptor (fd : Int)
  | ipcActorChan (fd : Int)
  | txChan (dest : Option VmId)
deriving DecidableEq, Repr

def Heap.leaf (h : Heap) : LuaVal → Option Leaf
  | .boolean b => some (.boolean b)
  | .number n => some (.number n)
  | .string s => some (.string s)
  | .userdata ref =>
      match h.userdata[ref]? with
      | some (.fileDescriptor fd) => some (.fileDescriptor fd)
      | some (.ipcActorChan fd) => some (.ipcActorChan fd)
      | some (.txChan dest) => some (.txChan dest)
      | _ => none
  | _ => none

/-- A leaf in the heap: what is not a Lua value of its own becomes a userdata. -/
def Heap.pushLeaf (h : Heap) : Leaf → LuaVal × Heap
  | .boolean b => (.boolean b, h)
  | .number n => (.number n, h)
  | .string s => (.string s, h)
  | .fileDescriptor fd => h.newuserdata (.fileDescriptor fd)
  | .ipcActorChan fd => h.newuserdata (.ipcActorChan fd)
  | .txChan dest => h.newuserdata (.txChan dest)

theorem Heap.leaf_pushLeaf (h : Heap) (l : Leaf) :
    (h.pushLeaf l).2.leaf (h.pushLeaf l).1 = some l := by
  cases l <;> simp [Heap.pushLeaf, Heap.newuserdata, Heap.leaf]

theorem Heap.pushLeaf_tables (h : Heap) (l : Leaf) : (h.pushLeaf l).2.tables = h.tables := by
  cases l <;> rfl

/-- Userdata are only ever added, so a leaf stays what it is. -/
theorem Heap.leaf_mono {h h' : Heap} (hpre : h.userdata <+: h'.userdata) {v : LuaVal} {l : Leaf}
    (hl : h.leaf v = some l) : h'.leaf v = some l := by
  cases v with
  | userdata ref =>
      obtain ⟨more, hmore⟩ := hpre
      have hlt : ref < h.userdata.length := by
        by_contra hge
        simp [Heap.leaf, List.getElem?_eq_none (Nat.le_of_not_lt hge)] at hl
      have hget : h'.userdata[ref]? = h.userdata[ref]? := by
        rw [← hmore, List.getElem?_append_left hlt]
      simpa only [Heap.leaf, hget] using hl
  | boolean _ | number _ | string _ => simpa [Heap.leaf] using hl
  | nil | table _ | function _ | thread _ | lightuserdata _ | cdata _ => cases hl

theorem Heap.pushLeaf_userdata_kept (h : Heap) (l : Leaf) :
    h.userdata <+: (h.pushLeaf l).2.userdata := by
  cases l <;> simp [Heap.pushLeaf, Heap.newuserdata]

/-- Table `ref` holds exactly the leaves `get` names. -/
def Heap.Shows (h : Heap) (ref : Nat) (get : LuaVal → Option Leaf) : Prop :=
  ref < h.tables.length ∧ ∀ key, (h.rawget ref key).map h.leaf = (get key).map some

theorem Heap.shows_newtable (h : Heap) : h.newtable.2.Shows h.tables.length fun _ => none := by
  refine ⟨by simp [Heap.newtable], fun key => ?_⟩
  rw [Heap.rawget_newtable]
  rfl

theorem Heap.Shows.rawset {h : Heap} {ref : Nat} {get : LuaVal → Option Leaf}
    (hs : h.Shows ref get) (key : LuaVal) (l : Leaf) :
    ((h.pushLeaf l).2.rawset ref key (h.pushLeaf l).1).Shows ref
      fun key' => if key' = key then some l else get key' := by
  obtain ⟨hlt, hget⟩ := hs
  have htables := Heap.pushLeaf_tables h l
  refine ⟨by simpa [htables] using hlt, fun key' => ?_⟩
  have hleaf (v : LuaVal) : ((h.pushLeaf l).2.rawset ref key (h.pushLeaf l).1).leaf v =
      (h.pushLeaf l).2.leaf v := rfl
  rw [Heap.rawget_rawset _ _ _ _ (by rwa [htables])]
  by_cases hk : key' = key
  · simp [hk, hleaf, Heap.leaf_pushLeaf]
  · have hsame : (h.pushLeaf l).2.rawget ref key' = h.rawget ref key' := by
      simp only [Heap.rawget, htables]
    rw [if_neg hk, hsame]
    simp only [hk, if_false]
    have hold := hget key'
    cases hv : h.rawget ref key' with
    | none => rw [hv] at hold; simpa using hold
    | some v =>
        rw [hv] at hold
        cases hg : get key' with
        | none => rw [hg] at hold; cases hold
        | some l' =>
            rw [hg] at hold
            have hl' : h.leaf v = some l' := by simpa using hold
            simp [hleaf, Heap.leaf_mono (Heap.pushLeaf_userdata_kept h l) hl']

/-- What a program sees of a received value: a leaf, or a table of leaves. -/
inductive View where
  | leaf (l : Option Leaf)
  | table (get : LuaVal → Option (Option Leaf))

def Heap.view (h : Heap) : LuaVal → View
  | .table ref => .table fun key => (h.rawget ref key).map h.leaf
  | v => .leaf (h.leaf v)

theorem Heap.Shows.view {h : Heap} {ref : Nat} {get : LuaVal → Option Leaf}
    (hs : h.Shows ref get) : h.view (.table ref) = .table fun key => (get key).map some := by
  simp only [Heap.view, hs.2]

theorem Heap.view_pushLeaf (h : Heap) (l : Leaf) :
    (h.pushLeaf l).2.view (h.pushLeaf l).1 = .leaf (some l) := by
  have hleaf := Heap.leaf_pushLeaf h l
  cases l <;> simpa [Heap.pushLeaf, Heap.newuserdata, Heap.view] using hleaf

end Emilua
