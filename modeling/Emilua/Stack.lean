import Mathlib.Data.Nat.Log
import Emilua.Lua

/-!
The stack of a `lua_State` over its heap, and the part of the C API that loops
over nested containers use. `none` stands for a use of the API whose effect is
not defined: an index beyond the stack, or a table access on something else.
-/
namespace Emilua
open Wire

/-- The bits of the double that holds a small natural number. -/
def doubleOfNat (n : Nat) : UInt64 :=
  if n = 0 then 0
  else UInt64.ofNat ((1023 + n.log2) * 2 ^ 52 + (n - 2 ^ n.log2) * 2 ^ (52 - n.log2))

/-- The key under which `lua_rawseti` stores element `n`. -/
def LuaVal.index (n : Nat) : LuaVal := .number (doubleOfNat n)

theorem doubleOfNat_parts {n : Nat} (hn : n ≠ 0) (hlt : n < 2 ^ 53) :
    (doubleOfNat n).toNat / 2 ^ 52 = 1023 + n.log2 ∧
      (doubleOfNat n).toNat % 2 ^ 52 = (n - 2 ^ n.log2) * 2 ^ (52 - n.log2) := by
  have hlog : n.log2 < 53 := (Nat.log2_lt hn).mpr hlt
  have hlow : 2 ^ n.log2 ≤ n := Nat.log2_self_le hn
  have hhigh : n < 2 ^ (n.log2 + 1) := Nat.lt_log2_self
  have hsmall : (n - 2 ^ n.log2) * 2 ^ (52 - n.log2) < 2 ^ 52 := by
    have hsub : n - 2 ^ n.log2 < 2 ^ n.log2 := by
      rw [pow_succ] at hhigh
      omega
    calc (n - 2 ^ n.log2) * 2 ^ (52 - n.log2)
        < 2 ^ n.log2 * 2 ^ (52 - n.log2) := Nat.mul_lt_mul_of_pos_right hsub (by positivity)
      _ = 2 ^ 52 := by rw [← pow_add]; congr 1; omega
  have hbits : (doubleOfNat n).toNat =
      (1023 + n.log2) * 2 ^ 52 + (n - 2 ^ n.log2) * 2 ^ (52 - n.log2) := by
    rw [doubleOfNat, if_neg hn, UInt64.toNat_ofNat']
    apply Nat.mod_eq_of_lt
    omega
  rw [hbits]
  constructor <;> omega

/-- Small natural numbers are distinct as doubles. -/
theorem doubleOfNat_injective {m n : Nat} (hm : m < 2 ^ 53) (hn : n < 2 ^ 53)
    (h : doubleOfNat m = doubleOfNat n) : m = n := by
  have hzero : ∀ k, k ≠ 0 → k < 2 ^ 53 → doubleOfNat k ≠ doubleOfNat 0 := by
    intro k hk hlt heq
    have hparts := (doubleOfNat_parts hk hlt).1
    have hnone : (doubleOfNat 0).toNat = 0 := rfl
    rw [heq, hnone] at hparts
    omega
  by_cases hm0 : m = 0
  · subst hm0
    by_contra hne
    exact hzero n (Ne.symm hne) hn h.symm
  by_cases hn0 : n = 0
  · subst hn0
    exact absurd h (hzero m hm0 hm)
  obtain ⟨hexp, hfrac⟩ := doubleOfNat_parts hm0 hm
  obtain ⟨hexp', hfrac'⟩ := doubleOfNat_parts hn0 hn
  rw [h] at hexp hfrac
  have hlog : m.log2 = n.log2 := by omega
  have hsub : m - 2 ^ m.log2 = n - 2 ^ n.log2 := by
    rw [← hlog] at hfrac' ⊢
    exact Nat.eq_of_mul_eq_mul_right (by positivity) (hfrac.symm.trans hfrac')
  have hm' := Nat.log2_self_le hm0
  have hn' := Nat.log2_self_le hn0
  rw [hlog] at hsub hm'
  omega

theorem LuaVal.index_injective {m n : Nat} (hm : m < 2 ^ 53) (hn : n < 2 ^ 53)
    (h : LuaVal.index m = LuaVal.index n) : m = n :=
  doubleOfNat_injective hm hn (LuaVal.number.inj h)

namespace Heap

/-- A raw store: a field that is set to `nil` is gone. -/
def assign (h : Heap) (ref : Nat) (key value : LuaVal) : Heap :=
  { h with tables := h.tables.modify ref fun t =>
      { t with fields := if value = .nil then t.fields.erase key else t.fields.insert key value } }

def fetch (h : Heap) (ref : Nat) (key : LuaVal) : LuaVal := (h.rawget ref key).getD .nil

@[simp] theorem assign_userdata (h : Heap) (ref : Nat) (key value : LuaVal) :
    (h.assign ref key value).userdata = h.userdata := rfl

@[simp] theorem assign_tables_length (h : Heap) (ref : Nat) (key value : LuaVal) :
    (h.assign ref key value).tables.length = h.tables.length := by
  simp [assign]

theorem assign_ne (h : Heap) {ref ref' : Nat} (key value : LuaVal) (hne : ref ≠ ref') :
    (h.assign ref key value).tables[ref']? = h.tables[ref']? := by
  simp [assign, List.getElem?_modify_ne _ _ hne]

theorem assign_metatable (h : Heap) (ref ref' : Nat) (key value : LuaVal) :
    (h.assign ref key value).tables[ref']?.map LuaTable.metatable =
      h.tables[ref']?.map LuaTable.metatable := by
  simp only [assign, List.getElem?_modify, Option.map_eq_map, Option.map_map]
  congr 1
  funext t
  simp only [Function.comp_apply]
  split <;> rfl

/-- Table `ref` has exactly these fields. -/
structure Holds (h : Heap) (ref : Nat) (es : List (LuaVal × LuaVal)) : Prop where
  bound : ref < h.tables.length
  fields : ∀ key, h.rawget ref key = es.lookup key

theorem Holds.of_same {h h' : Heap} {ref : Nat} {es : List (LuaVal × LuaVal)}
    (hs : h.Holds ref es) (hsame : h'.tables[ref]? = h.tables[ref]?) : h'.Holds ref es where
  bound := by
    have hget := List.getElem?_eq_getElem hs.bound
    rw [← hsame] at hget
    exact (List.getElem?_eq_some_iff.mp hget).1
  fields := by
    intro key
    rw [rawget, hsame]
    exact hs.fields key

theorem lookup_fresh {es : List (LuaVal × LuaVal)} {key : LuaVal}
    (hfresh : key ∉ es.map Prod.fst) : es.lookup key = none := by
  rw [List.lookup_eq_none_iff]
  intro e he
  simp only [bne_iff_ne]
  rintro rfl
  exact hfresh (List.mem_map_of_mem he)

theorem lookup_append_fresh {es : List (LuaVal × LuaVal)} {key : LuaVal} (value : LuaVal)
    (hfresh : key ∉ es.map Prod.fst) (key' : LuaVal) :
    (es ++ [(key, value)]).lookup key' = if key' = key then some value else es.lookup key' := by
  rw [List.lookup_append]
  by_cases hk : key' = key
  · subst hk
    simp [lookup_fresh hfresh]
  · simp [hk]

/-- Storing a value under a new key. -/
theorem Holds.assign {h : Heap} {ref : Nat} {es : List (LuaVal × LuaVal)} {key value : LuaVal}
    (hs : h.Holds ref es) (hvalue : value ≠ .nil) (hfresh : key ∉ es.map Prod.fst) :
    (h.assign ref key value).Holds ref (es ++ [(key, value)]) where
  bound := by simpa using hs.bound
  fields := by
    intro key'
    have hold := hs.fields key'
    rw [lookup_append_fresh value hfresh]
    simp only [rawget, Heap.assign, if_neg hvalue, List.getElem?_modify_eq,
      List.getElem?_eq_getElem hs.bound, Option.map_eq_map, Option.map_some,
      Option.bind_some] at hold ⊢
    by_cases hk : key' = key
    · subst hk
      simp
    · rw [if_neg hk, AList.lookup_insert_ne hk, hold]

theorem lookup_reverse {es : List (LuaVal × LuaVal)} (hnodup : (es.map Prod.fst).Nodup) (key : LuaVal) :
    es.reverse.lookup key = es.lookup key := by
  induction es with
  | nil => rfl
  | cons e es ih =>
      obtain ⟨hfresh, hrest⟩ := List.nodup_cons.mp hnodup
      rw [List.reverse_cons, List.lookup_append, ih hrest, List.lookup_cons, List.lookup_cons]
      by_cases hk : key = e.1
      · rw [hk, lookup_fresh hfresh]
        simp
      · rw [beq_false_of_ne hk]
        simp

/-- Table `ref` has the last of these entries for each key. -/
structure Latest (h : Heap) (ref : Nat) (es : List (LuaVal × LuaVal)) : Prop where
  bound : ref < h.tables.length
  fields : ∀ key, h.rawget ref key = es.reverse.lookup key

section
variable {h h' : Heap} {ref : Nat} {es : List (LuaVal × LuaVal)}

theorem Latest.of_same (hs : h.Latest ref es) (hsame : h'.tables[ref]? = h.tables[ref]?) : h'.Latest ref es where
  bound := by
    have hget := List.getElem?_eq_getElem hs.bound
    rw [← hsame] at hget
    exact (List.getElem?_eq_some_iff.mp hget).1
  fields key := by
    rw [rawget, hsame]
    exact hs.fields key

theorem Latest.holds (hs : h.Latest ref es) (hnodup : (es.map Prod.fst).Nodup) : h.Holds ref es :=
  ⟨hs.bound, fun key => by rw [hs.fields, lookup_reverse hnodup]⟩

theorem Holds.latest (hs : h.Holds ref es) (hnodup : (es.map Prod.fst).Nodup) : h.Latest ref es :=
  ⟨hs.bound, fun key => by rw [hs.fields, lookup_reverse hnodup]⟩

/-- Storing a value, whether or not there is one under the key. -/
theorem Latest.assign {key value : LuaVal} (hs : h.Latest ref es) (hvalue : value ≠ .nil) :
    (h.assign ref key value).Latest ref (es ++ [(key, value)]) where
  bound := by simpa using hs.bound
  fields := by
    intro key'
    have hold := hs.fields key'
    rw [List.reverse_append, List.reverse_singleton, List.singleton_append, List.lookup_cons]
    simp only [rawget, Heap.assign, if_neg hvalue, List.getElem?_modify_eq,
      List.getElem?_eq_getElem hs.bound, Option.map_eq_map, Option.map_some,
      Option.bind_some] at hold ⊢
    by_cases hk : key' = key
    · subst hk
      simp
    · rw [beq_false_of_ne hk, AList.lookup_insert_ne hk, hold]

end

/-- Clearing the last field. -/
theorem Holds.clear {h : Heap} {ref : Nat} {es : List (LuaVal × LuaVal)} {key value : LuaVal}
    (hs : h.Holds ref (es ++ [(key, value)])) (hfresh : key ∉ es.map Prod.fst) :
    (h.assign ref key .nil).Holds ref es where
  bound := by simpa using hs.bound
  fields := by
    intro key'
    have hold := hs.fields key'
    rw [lookup_append_fresh value hfresh] at hold
    simp only [rawget, Heap.assign, if_pos, List.getElem?_modify_eq,
      List.getElem?_eq_getElem hs.bound, Option.map_eq_map, Option.map_some,
      Option.bind_some] at hold ⊢
    by_cases hk : key' = key
    · subst hk
      rw [AList.lookup_erase, lookup_fresh hfresh]
    · rw [AList.lookup_erase_ne hk, hold, if_neg hk]

/-- A table with a metatable when `metatable` says so, without fields. -/
def create (h : Heap) (metatable : Bool) : Heap :=
  { h with tables := h.tables ++ [⟨metatable, ∅⟩] }

theorem holds_create (h : Heap) (metatable : Bool) :
    (h.create metatable).Holds h.tables.length [] where
  bound := by simp [create]
  fields := by
    intro key
    simp [rawget, create]

theorem create_same (h : Heap) (metatable : Bool) {ref : Nat} (hlt : ref < h.tables.length) :
    (h.create metatable).tables[ref]? = h.tables[ref]? := by
  rw [create, List.getElem?_append_left hlt]

end Heap

/-- The entries of a table that is a sequence. -/
def sequence (vs : List LuaVal) : List (LuaVal × LuaVal) :=
  vs.zipIdx.map fun p => (LuaVal.index (p.2 + 1), p.1)

theorem sequence_append (vs : List LuaVal) (v : LuaVal) :
    sequence (vs ++ [v]) = sequence vs ++ [(LuaVal.index (vs.length + 1), v)] := by
  simp [sequence, List.zipIdx_append]

theorem index_not_mem_sequence {vs : List LuaVal} (hlen : vs.length + 1 < 2 ^ 53) :
    LuaVal.index (vs.length + 1) ∉ (sequence vs).map Prod.fst := by
  intro hmem
  obtain ⟨e, he, hkey⟩ := List.mem_map.mp hmem
  obtain ⟨p, hp, rfl⟩ := List.mem_map.mp he
  have hlt := List.snd_lt_of_mem_zipIdx hp
  have heq := LuaVal.index_injective (by omega) hlen hkey
  omega

theorem sequence_nodup {vs : List LuaVal} (hlen : vs.length < 2 ^ 53) : ((sequence vs).map Prod.fst).Nodup := by
  induction vs using List.reverseRecOn with
  | nil => exact List.nodup_nil
  | append_singleton vs v ih =>
      rw [List.length_append, List.length_singleton] at hlen
      rw [sequence_append, List.map_append, List.map_singleton, ← List.concat_eq_append]
      exact (ih (by omega)).concat (index_not_mem_sequence hlen)

theorem lookup_sequence {vs : List LuaVal} (hlen : vs.length < 2 ^ 53) {i : Nat} {v : LuaVal}
    (hget : vs[i]? = some v) : (sequence vs).lookup (LuaVal.index (i + 1)) = some v := by
  induction vs using List.reverseRecOn with
  | nil => simp at hget
  | append_singleton vs w ih =>
      rw [List.length_append, List.length_singleton] at hlen
      rw [sequence_append, Heap.lookup_append_fresh w (index_not_mem_sequence hlen)]
      have hlt : i < vs.length + 1 := by simpa using (List.getElem?_eq_some_iff.mp hget).1
      by_cases heq : i = vs.length
      · subst heq
        simpa using hget
      · have hne : LuaVal.index (i + 1) ≠ LuaVal.index (vs.length + 1) := by
          intro hkey
          have := LuaVal.index_injective (by omega) hlen hkey
          omega
        rw [if_neg hne]
        apply ih (by omega)
        rwa [List.getElem?_append_left (by omega)] at hget

/-! The stack. -/

/-- The values of a `lua_State`'s stack frame, the top first. -/
structure LuaState where
  stack : List LuaVal
  heap : Heap

namespace LuaState

/-- The value at index `-i`. -/
def at? (L : LuaState) (i : Nat) : Option LuaVal := L.stack[i - 1]?

def push (L : LuaState) (v : LuaVal) : LuaState := { L with stack := v :: L.stack }

def newtable (L : LuaState) : LuaState :=
  ⟨.table L.heap.tables.length :: L.stack, L.heap.create false⟩

def newuserdata (L : LuaState) (u : Userdata) : LuaState :=
  ⟨.userdata L.heap.userdata.length :: L.stack,
    { L.heap with userdata := L.heap.userdata ++ [u] }⟩

def pop (L : LuaState) (n : Nat) : Option LuaState :=
  if n ≤ L.stack.length then some { L with stack := L.stack.drop n } else none

def pushvalue (L : LuaState) (i : Nat) : Option LuaState := (L.at? i).map L.push

/-- The top moves down to index `-i`. -/
def insert (L : LuaState) (i : Nat) : Option LuaState :=
  match L.stack with
  | v :: rest =>
      if 0 < i ∧ i ≤ L.stack.length then
        some { L with stack := rest.take (i - 1) ++ v :: rest.drop (i - 1) }
      else none
  | [] => none

def remove (L : LuaState) (i : Nat) : Option LuaState :=
  if 0 < i ∧ i ≤ L.stack.length then some { L with stack := L.stack.eraseIdx (i - 1) } else none

def rawset (L : LuaState) (i : Nat) : Option LuaState :=
  match L.stack, L.at? i with
  | value :: key :: rest, some (.table t) => some ⟨rest, L.heap.assign t key value⟩
  | _, _ => none

def rawget (L : LuaState) (i : Nat) : Option LuaState :=
  match L.stack, L.at? i with
  | key :: rest, some (.table t) => some ⟨L.heap.fetch t key :: rest, L.heap⟩
  | _, _ => none

def rawseti (L : LuaState) (i n : Nat) : Option LuaState :=
  match L.stack, L.at? i with
  | value :: rest, some (.table t) => some ⟨rest, L.heap.assign t (.index n) value⟩
  | _, _ => none

def rawgeti (L : LuaState) (i n : Nat) : Option LuaState :=
  match L.at? i with
  | some (.table t) => some (L.push (L.heap.fetch t (.index n)))
  | _ => none

end LuaState

end Emilua
