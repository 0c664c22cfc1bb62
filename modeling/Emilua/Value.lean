import Emilua.Stack

/-!
`inbox_t::value_type`, the form in which a message waits in an inbox.

A box holds the number of an owned descriptor. An in-process address whose weak
pointer is empty, because it was moved from or its VM is gone, has no target.
-/
namespace Emilua
open Wire

inductive Value where
  | boolean (b : Bool)
  | number (bits : UInt64)
  | string (s : Bytes)
  | fileDescriptor (box : Int)
  | ipcActorAddress (box : Int)
  | object (m : List (Bytes × Value))
  | array (a : List Value)
  | address (dest : Option VmId)

mutual

def Value.addresses : Value → List VmId
  | .address dest => dest.toList
  | .object m => addressesObject m
  | .array a => addressesArray a
  | _ => []

def addressesObject : List (Bytes × Value) → List VmId
  | [] => []
  | (_, v) :: m => v.addresses ++ addressesObject m

def addressesArray : List Value → List VmId
  | [] => []
  | v :: a => v.addresses ++ addressesArray a

end

mutual

/-- The descriptors a message owns; its boxes close them on destruction. -/
def Value.boxes : Value → List Int
  | .fileDescriptor box | .ipcActorAddress box => [box]
  | .object m => boxesObject m
  | .array a => boxesArray a
  | _ => []

def boxesObject : List (Bytes × Value) → List Int
  | [] => []
  | (_, v) :: m => v.boxes ++ boxesObject m

def boxesArray : List Value → List Int
  | [] => []
  | v :: a => v.boxes ++ boxesArray a

end

mutual

/-- Iterations the traversal spends below a value: one for every child and one
for closing every container. -/
def Value.steps : Value → Nat
  | .object m => stepsObject m + 1
  | .array a => stepsArray a + 1
  | _ => 0

def stepsObject : List (Bytes × Value) → Nat
  | [] => 0
  | (_, v) :: m => v.steps + 1 + stepsObject m

def stepsArray : List Value → Nat
  | [] => 0
  | v :: a => v.steps + 1 + stepsArray a

end

/-- `std::map` keeps its entries in the order of their keys. -/
def insertKey {β : Type} : List (Bytes × β) → Bytes → β → List (Bytes × β)
  | [], k, v => [(k, v)]
  | e :: m, k, v => if k < e.1 then (k, v) :: e :: m else e :: insertKey m k v

/-- `std::map::emplace` keeps the value of a key that is already there. -/
def emplace {β : Type} (m : List (Bytes × β)) (k : Bytes) (v : β) : List (Bytes × β) :=
  if (m.lookup k).isSome then m else insertKey m k v

theorem insertKey_perm {β : Type} (m : List (Bytes × β)) (k : Bytes) (v : β) :
    (insertKey m k v).Perm ((k, v) :: m) := by
  induction m with
  | nil => exact .refl _
  | cons e m ih =>
      unfold insertKey
      split
      · exact .refl _
      · exact (ih.cons e).trans (.swap _ _ _)

theorem lookup_cons_eq {β : Type} (m : List (Bytes × β)) (k k' : Bytes) (v : β) :
    ((k, v) :: m).lookup k' = if k' = k then some v else m.lookup k' := by
  by_cases hk : k' = k
  · simp [hk]
  · simp only [List.lookup_cons, show (k' == k) = false by simpa using hk, if_neg hk]

theorem lookup_insertKey {β : Type} {m : List (Bytes × β)} {k : Bytes} (h : m.lookup k = none)
    (v : β) (k' : Bytes) :
    (insertKey m k v).lookup k' = if k' = k then some v else m.lookup k' := by
  induction m with
  | nil => exact lookup_cons_eq [] k k' v
  | cons e m ih =>
      obtain ⟨k₀, v₀⟩ := e
      have hne : k ≠ k₀ := by rintro rfl; simp at h
      rw [lookup_cons_eq, if_neg hne] at h
      unfold insertKey
      split
      · exact lookup_cons_eq _ k k' v
      · rw [lookup_cons_eq, lookup_cons_eq, ih h]
        by_cases hk : k' = k₀
        · simp [hk, hne.symm]
        · simp [hk]

theorem lookup_emplace {β : Type} (m : List (Bytes × β)) (k k' : Bytes) (v : β) :
    (emplace m k v).lookup k' = (m.lookup k').or (if k' = k then some v else none) := by
  unfold emplace
  split
  · rename_i h
    by_cases hk : k' = k
    · subst hk
      obtain ⟨v₀, hv₀⟩ := Option.isSome_iff_exists.mp h
      simp [hv₀]
    · simp [hk]
  · rename_i h
    have hnone : m.lookup k = none := Option.not_isSome_iff_eq_none.mp h
    rw [lookup_insertKey hnone]
    by_cases hk : k' = k
    · subst hk; simp [hnone]
    · simp [hk]

theorem emplace_map {β γ : Type} (f : β → γ) (m : List (Bytes × β)) (k : Bytes) (v : β) :
    emplace (m.map fun e => (e.1, f e.2)) k (f v) = (emplace m k v).map fun e => (e.1, f e.2) := by
  have hlookup : (m.map fun e => (e.1, f e.2)).lookup k = (m.lookup k).map f := by
    induction m with
    | nil => rfl
    | cons e m ih =>
        obtain ⟨k₀, v₀⟩ := e
        rw [List.map_cons, lookup_cons_eq, lookup_cons_eq, ih]
        split <;> rfl
  have hinsert : insertKey (m.map fun e => (e.1, f e.2)) k (f v) =
      (insertKey m k v).map fun e => (e.1, f e.2) := by
    clear hlookup
    induction m with
    | nil => rfl
    | cons e m ih =>
        simp only [List.map_cons, insertKey, ih]
        split <;> rfl
  rw [emplace, hlookup, Option.isSome_map, hinsert, emplace]
  split <;> rfl

theorem boxesObject_eq_flatMap (m : List (Bytes × Value)) :
    boxesObject m = m.flatMap fun e => e.2.boxes := by
  induction m with
  | nil => rfl
  | cons e m ih => simp only [boxesObject, ih, List.flatMap_cons]

theorem boxesObject_insertKey (m : List (Bytes × Value)) (k : Bytes) (v : Value) :
    (boxesObject (insertKey m k v)).Perm (v.boxes ++ boxesObject m) := by
  simp only [boxesObject_eq_flatMap]
  exact (insertKey_perm m k v).flatMap_right _

def Leaf.toValue : Leaf → Value
  | .boolean b => .boolean b
  | .number n => .number n
  | .string s => .string s
  | .fileDescriptor fd => .fileDescriptor fd
  | .ipcActorChan fd => .ipcActorAddress fd
  | .txChan dest => .address dest

def Leaf.descriptor : Leaf → List Int
  | .fileDescriptor fd | .ipcActorChan fd => [fd]
  | _ => []

theorem Leaf.boxes_toValue (l : Leaf) : l.toValue.boxes = l.descriptor := by
  cases l <;> rfl

/-- An object whose members are all leaves. -/
def leafObject (es : List (Bytes × Leaf)) : Value := .object (es.map fun e => (e.1, e.2.toValue))

/-- The table that results from setting the entries one after the other. -/
def tableOf (es : List (Bytes × Leaf)) : LuaVal → Option Leaf
  | .string k => es.reverse.lookup k
  | _ => none

theorem lookup_reverse {es : List (Bytes × Leaf)} (h : (es.map Prod.fst).Nodup) (k : Bytes) :
    es.reverse.lookup k = es.lookup k := by
  induction es with
  | nil => rfl
  | cons e es ih =>
      obtain ⟨k₀, l⟩ := e
      rw [List.map_cons, List.nodup_cons] at h
      rw [List.reverse_cons, List.lookup_append, ih h.2, lookup_cons_eq, lookup_cons_eq]
      by_cases hk : k = k₀
      · have hnone : es.lookup k = none := by
          rw [List.lookup_eq_none_iff]
          intro e he
          have hne : e.1 ≠ k₀ := fun heq => h.1 (List.mem_map.mpr ⟨e, he, heq⟩)
          simp [hk, Ne.symm hne]
        simp [hk, hk ▸ hnone]
      · simp [hk]

theorem tableOf_append (es : List (Bytes × Leaf)) (k : Bytes) (l : Leaf) :
    tableOf (es ++ [(k, l)]) =
      fun key => if key = .string k then some l else tableOf es key := by
  funext key
  cases key with
  | string k' => simp only [tableOf, List.reverse_append, List.reverse_singleton,
      List.singleton_append, lookup_cons_eq, LuaVal.string.injEq]
  | nil | boolean _ | number _ | table _ | userdata _ | function _ | thread _
  | lightuserdata _ | cdata _ => simp [tableOf]

theorem Heap.shows_newtable_tableOf (h : Heap) :
    h.newtable.2.Shows h.tables.length (tableOf []) := by
  convert h.shows_newtable using 1
  funext key
  cases key <;> rfl

end Emilua
