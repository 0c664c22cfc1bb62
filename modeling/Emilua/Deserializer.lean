import Emilua.Builder
import Emilua.Value

/-!
`deserializer_closure`, which rebuilds a queued message as a Lua value in the
receiving VM.

The message is consumed: boxes and addresses are moved into Lua objects. A range
of the source points into the message; here it keeps the part of its container
that has been visited, as it is now, beside the part that is still to come. The
child below which the traversal is at work is in neither.
-/
namespace Emilua
open Wire Keyed

/-- `object_range`, with the key of the child that is being visited, and
`array_range`. -/
inductive Range where
  | object (done : List (Bytes × Value)) (hole : Option Bytes) (rest : List (Bytes × Value))
  | array (idx : Nat) (done rest : List Value)

namespace Range

def next : Range → Option (LuaVal × Value × Range)
  | .object _ _ [] | .array _ _ [] => none
  | .object done _ ((k, v) :: rest) => some (.string k, v, .object done (some k) rest)
  | .array idx done (v :: rest) => some (.index (idx + 1), v, .array (idx + 1) done rest)

/-- The child has been visited and is left behind as `v`. -/
def fill (v : Value) : Range → Range
  | .object done (some k) rest => .object (done ++ [(k, v)]) none rest
  | .object done none rest => .object done none rest
  | .array idx done rest => .array idx (done ++ [v]) rest

/-- The container once it has been visited. -/
def value : Range → Value
  | .object done _ _ => .object done
  | .array _ done _ => .array done

end Range

/-- A leaf is pushed, moved out of the message where it is an object of its own;
a container is appended to the path instead. -/
def pushLeafOrAppendPath (L : LuaState) : Value → (LuaState × Value) ⊕ Range
  | .boolean b => .inl (L.push (.boolean b), .boolean b)
  | .number n => .inl (L.push (.number n), .number n)
  | .string s => .inl (L.push (.string s), .string s)
  | .address dest => .inl (L.newuserdata (.txChan dest), .address none)
  | .fileDescriptor box => .inl (L.newuserdata (.fileDescriptor box), .fileDescriptor (-1))
  | .ipcActorAddress box => .inl (L.newuserdata (.ipcActorChan box), .ipcActorAddress (-1))
  | .object m => .inr (.object [] none m)
  | .array a => .inr (.array 0 [] a)

/-- The Lua stack and the path, the innermost range first. -/
structure Walk where
  L : LuaState
  path : List Range

/-- One iteration of the loop: it goes on, or leaves with the consumed message. -/
def iterate (w : Walk) : Option (Walk ⊕ (LuaState × Value)) :=
  match w.path with
  | [] => none
  | r :: path =>
      match r.next with
      | none =>
          match path with
          | [] => some (.inr (w.L, r.value))
          | parent :: outer => do
              let L ← w.L.pop 1
              let L ← (L.push .nil).rawseti 2 (path.length + 1)
              let L ← L.rawgeti 1 path.length
              some (.inl ⟨L, parent.fill r.value :: outer⟩)
      | some (key, v, r) =>
          match pushLeafOrAppendPath (w.L.push key) v with
          | .inl (L, spent) => do
              let L ← L.rawset 3
              some (.inl ⟨L, r.fill spent :: path⟩)
          | .inr child => do
              let L ← (w.L.push key).newtable.insert 2
              let L ← L.pushvalue 2
              let L ← L.rawset 4
              let L ← L.remove 2
              let L ← L.pushvalue 1
              let L ← L.rawseti 3 (path.length + 2)
              some (.inl ⟨L, child :: r :: path⟩)

def walk : Nat → Walk → Option (LuaState × Value)
  | 0, _ => none
  | fuel + 1, w =>
      match iterate w with
      | some (.inl w) => walk fuel w
      | some (.inr r) => some r
      | none => none

/-- The result is on top of the stack; the message is left as the traversal
leaves it. -/
def deserializerRun (L : LuaState) (v : Value) : Option (LuaState × Value) :=
  match pushLeafOrAppendPath L v with
  | .inl r => some r
  | .inr r => do
      let L := L.newtable.newtable
      let L ← L.pushvalue 1
      let L ← L.rawseti 3 1
      walk v.steps ⟨L, [r]⟩

/-- A call of the closure in the receiving VM. -/
def deserializerClosure (h : Heap) (v : Value) : Option (LuaVal × Heap) :=
  (deserializerRun ⟨[], h⟩ v).bind fun r => (r.1.at? 1).map fun result => (result, r.1.heap)

/-! The message as a tree, and as it is left behind. -/

def leafPush : Leaves Leaf where
  value u
    | .boolean b => .boolean b
    | .number n => .number n
    | .string s => .string s
    | .fileDescriptor _ | .ipcActorChan _ | .txChan _ => .userdata u
  objects
    | .fileDescriptor fd => [.fileDescriptor fd]
    | .ipcActorChan fd => [.ipcActorChan fd]
    | .txChan dest => [.txChan dest]
    | .boolean _ | .number _ | .string _ => []
  value_ne u a := by cases a <;> simp

mutual

def Value.tree : Value → Tree LuaVal Leaf Bool
  | .boolean b => .leaf (.boolean b)
  | .number n => .leaf (.number n)
  | .string s => .leaf (.string s)
  | .fileDescriptor box => .leaf (.fileDescriptor box)
  | .ipcActorAddress box => .leaf (.ipcActorChan box)
  | .address dest => .leaf (.txChan dest)
  | .object m => .node false (treeObject m)
  | .array a => .node true (treeArray 0 a)

def treeObject : List (Bytes × Value) → Forest LuaVal Leaf Bool
  | [] => .nil
  | (k, v) :: m => .cons (.string k) v.tree (treeObject m)

/-- Element `i` of an array is its field `i + 1`. -/
def treeArray : Nat → List Value → Forest LuaVal Leaf Bool
  | _, [] => .nil
  | i, v :: a => .cons (.index (i + 1)) v.tree (treeArray (i + 1) a)

end

mutual

/-- The message when everything has been moved out of it. -/
def Value.spent : Value → Value
  | .fileDescriptor _ => .fileDescriptor (-1)
  | .ipcActorAddress _ => .ipcActorAddress (-1)
  | .address _ => .address none
  | .object m => .object (spentObject m)
  | .array a => .array (spentArray a)
  | v => v

def spentObject : List (Bytes × Value) → List (Bytes × Value)
  | [] => []
  | (k, v) :: m => (k, v.spent) :: spentObject m

def spentArray : List Value → List Value
  | [] => []
  | v :: a => v.spent :: spentArray a

end

mutual

/-- Every iteration but the last is an event of the message below its root. -/
theorem Value.events_length : (v : Value) → (key : LuaVal) →
    (v.tree.events key).length = v.steps + 1
  | .boolean _, _ | .number _, _ | .string _, _ | .fileDescriptor _, _ | .ipcActorAddress _, _
  | .address _, _ => rfl
  | .object m, key => by
      simp only [Value.tree, Tree.events, List.length_cons, List.length_append, List.length_nil,
        treeObject_length m, Value.steps]
  | .array a, key => by
      simp only [Value.tree, Tree.events, List.length_cons, List.length_append, List.length_nil,
        treeArray_length a 0, Value.steps]

theorem treeObject_length : (m : List (Bytes × Value)) →
    (treeObject m).events.length = stepsObject m
  | [] => rfl
  | (k, v) :: m => by
      simp only [treeObject, Forest.events, List.length_append, Value.events_length v,
        treeObject_length m, stepsObject]

theorem treeArray_length : (a : List Value) → (i : Nat) →
    (treeArray i a).events.length = stepsArray a
  | [], _ => rfl
  | v :: a, i => by
      simp only [treeArray, Forest.events, List.length_append, Value.events_length v,
        treeArray_length a, stepsArray]

end

/-! The path: what is still to come, what the message will be, how deep it is. -/

def Range.forest : Range → Forest LuaVal Leaf Bool
  | .object _ _ rest => treeObject rest
  | .array idx _ rest => treeArray idx rest

/-- The container when the rest of it has been visited too. -/
def Range.finished : Range → Value
  | .object done _ rest => .object (done ++ spentObject rest)
  | .array _ done rest => .array (done ++ spentArray rest)

/-- The events left, but for the end of the root. -/
def remaining : List Range → List (Event LuaVal Leaf Bool)
  | [] => []
  | [r] => r.forest.events
  | r :: parent :: path => r.forest.events ++ .leave :: remaining (parent :: path)

/-- The whole message as it will be left. -/
def finish : List Range → Option Value
  | [] => none
  | [r] => some r.finished
  | r :: parent :: path => finish (parent.fill r.finished :: path)
termination_by path => path.length

def deepest : List Range → Nat
  | [] => 0
  | r :: path => max (path.length + 1 + r.forest.depth) (deepest path)

theorem Range.next_none {r : Range} (h : r.next = none) :
    r.forest.events = [] ∧ r.value = r.finished := by
  cases r with
  | object done hole rest =>
      cases rest with
      | nil => exact ⟨rfl, by simp [Range.value, Range.finished, spentObject]⟩
      | cons e rest => cases h
  | array idx done rest =>
      cases rest with
      | nil => exact ⟨rfl, by simp [Range.value, Range.finished, spentArray]⟩
      | cons v rest => cases h

/-- The next child comes first in what is left of its container. -/
theorem Range.next_some {r r' : Range} {key : LuaVal} {v : Value} (h : r.next = some (key, v, r')) :
    r.forest.events = v.tree.events key ++ r'.forest.events ∧
      r.forest.depth = max v.tree.depth r'.forest.depth ∧
      (r'.fill v.spent).finished = r.finished ∧
      ∀ w, (r'.fill w).forest = r'.forest := by
  cases r with
  | object done hole rest =>
      cases rest with
      | nil => cases h
      | cons e rest =>
          obtain ⟨k, w⟩ := e
          cases h
          exact ⟨rfl, rfl, by simp [Range.fill, Range.finished, spentObject], fun _ => rfl⟩
  | array idx done rest =>
      cases rest with
      | nil => cases h
      | cons w rest =>
          cases h
          exact ⟨rfl, rfl, by simp [Range.fill, Range.finished, spentArray], fun _ => rfl⟩

/-- The rest depends on the innermost range only through its forest. -/
theorem remaining_congr {r r' : Range} (path : List Range) {es : List (Event LuaVal Leaf Bool)}
    (h : r.forest.events = es ++ r'.forest.events) :
    remaining (r :: path) = es ++ remaining (r' :: path) := by
  cases path with
  | nil => exact h
  | cons parent path =>
      rw [remaining, remaining, h, List.append_assoc]

theorem finish_congr {r r' : Range} (path : List Range) (h : r.finished = r'.finished) :
    finish (r :: path) = finish (r' :: path) := by
  cases path with
  | nil => rw [finish, finish, h]
  | cons parent path => rw [finish, finish, h]

/-- A value that is pushed is a leaf of the message, any other a container. -/
theorem pushLeafOrAppendPath_cases (L : LuaState) (v : Value) :
    (∃ a : Leaf, v.tree = .leaf a ∧ pushLeafOrAppendPath L v =
      .inl (⟨leafPush.value L.heap.userdata.length a :: L.stack,
        { L.heap with userdata := L.heap.userdata ++ leafPush.objects a }⟩, v.spent)) ∨
    ∃ r : Range, ∃ label, v.tree = .node label r.forest ∧ pushLeafOrAppendPath L v = .inr r ∧
      r.finished = v.spent := by
  cases v with
  | boolean b => exact .inl ⟨.boolean b, rfl, by simp [pushLeafOrAppendPath, leafPush, LuaState.push, Value.spent]⟩
  | number n => exact .inl ⟨.number n, rfl, by simp [pushLeafOrAppendPath, leafPush, LuaState.push, Value.spent]⟩
  | string s => exact .inl ⟨.string s, rfl, by simp [pushLeafOrAppendPath, leafPush, LuaState.push, Value.spent]⟩
  | fileDescriptor box => exact .inl ⟨.fileDescriptor box, rfl, rfl⟩
  | ipcActorAddress box => exact .inl ⟨.ipcActorChan box, rfl, rfl⟩
  | address dest => exact .inl ⟨.txChan dest, rfl, rfl⟩
  | object m => exact .inr ⟨.object [] none m, false, rfl, rfl, rfl⟩
  | array a => exact .inr ⟨.array 0 [] a, true, rfl, rfl, rfl⟩

/-! The loop follows the builder, event by event. -/

/-- `std::numeric_limits<int>::max()`. -/
def intMax : Nat := 2147483647

/-- The top slots of the stack are the innermost open table and the list of the
open ones, and the path has a range for each of them. -/
structure Follows (tree : Nat) (base : List LuaVal) (w : Walk) (b : Build) : Prop where
  stack : ∃ cur outer, b.levels = cur :: outer ∧ w.L.stack = .table cur :: .table tree :: base
  heap : w.L.heap = b.heap
  ready : Ready tree b
  depth : w.path.length = b.levels.length
  shallow : deepest w.path ≤ intMax

theorem Follows.deep {tree : Nat} {base : List LuaVal} {w : Walk} {b : Build}
    (hf : Follows tree base w b) : b.levels.length + 1 < 2 ^ 53 := by
  have hshallow := hf.shallow
  have hdepth := hf.depth
  have hpath : w.path.length ≤ deepest w.path := by
    cases hp : w.path with
    | nil => simp
    | cons r path =>
        rw [deepest, List.length_cons]
        omega
  have hmax : intMax = 2147483647 := rfl
  omega

section Follows
variable {tree : Nat} {base : List LuaVal} {L : LuaState} {r r' : Range} {path : List Range}
  {b b' : Build} {key : LuaVal} {v : Value}

theorem Follows.leaf (hf : Follows tree base ⟨L, r :: path⟩ b) (hnext : r.next = some (key, v, r'))
    {a : Leaf}
    (hpush : pushLeafOrAppendPath (L.push key) v =
      .inl (⟨leafPush.value L.heap.userdata.length a :: (L.push key).stack,
        { L.heap with userdata := L.heap.userdata ++ leafPush.objects a }⟩, v.spent))
    (hstep : Build.step leafPush false tree b (.leaf key a) = some b') :
    ∃ w', iterate ⟨L, r :: path⟩ = some (.inl w') ∧ Follows tree base w' b' ∧
      w'.path = r'.fill v.spent :: path := by
  obtain ⟨cur, outer, hlevels, hstack⟩ := hf.stack
  change L.stack = _ at hstack
  obtain ⟨hevents, hdepth, -, hforest⟩ := Range.next_some hnext
  rw [Build.step_leaf_eq hlevels] at hstep
  cases hstep
  have hheap : L.heap = b.heap := hf.heap
  refine ⟨⟨⟨.table cur :: .table tree :: base,
    { L.heap with userdata := L.heap.userdata ++ leafPush.objects a }.assign cur key
      (leafPush.value L.heap.userdata.length a)⟩, r'.fill v.spent :: path⟩, ?_, ?_, rfl⟩
  · unfold iterate
    simp only [hnext, hpush]
    simp only [LuaState.push, hstack]
    rfl
  · refine ⟨⟨cur, outer, hlevels, rfl⟩, by rw [hheap], ?_, hf.depth, ?_⟩
    · refine hf.ready.assign hlevels ?_ _ _
      rfl
    · have hshallow := hf.shallow
      simp only [deepest, hforest, hdepth] at hshallow ⊢
      omega

theorem Follows.enter (hf : Follows tree base ⟨L, r :: path⟩ b) (hnext : r.next = some (key, v, r'))
    {child : Range} {label : Bool} (hnode : v.tree = .node label child.forest)
    (hpush : pushLeafOrAppendPath (L.push key) v = .inr child)
    (hstep : Build.step leafPush false tree b (.enter key label) = some b') :
    ∃ w', iterate ⟨L, r :: path⟩ = some (.inl w') ∧ Follows tree base w' b' ∧
      w'.path = child :: r' :: path := by
  obtain ⟨cur, outer, hlevels, hstack⟩ := hf.stack
  change L.stack = _ at hstack
  obtain ⟨hevents, hdepth, -, -⟩ := Range.next_some hnext
  have hready := hf.ready.step hf.deep hstep
  have hlen : path.length + 1 = b.levels.length := hf.depth
  have hheap : L.heap = b.heap := hf.heap
  rw [Build.step_enter_eq hlevels, ← hlen] at hstep
  cases hstep
  refine ⟨⟨⟨.table b.heap.tables.length :: .table tree :: base,
    ((b.heap.create (false && label)).assign cur key (.table b.heap.tables.length)).assign tree
      (.index (path.length + 1 + 1)) (.table b.heap.tables.length)⟩, child :: r' :: path⟩,
    ?_, ?_, rfl⟩
  · unfold iterate
    simp only [hnext, hpush]
    simp only [LuaState.push, LuaState.newtable, hstack, hheap]
    simp [LuaState.insert, LuaState.pushvalue, LuaState.push, LuaState.rawset, LuaState.remove,
      LuaState.rawseti, LuaState.at?]
  · refine ⟨⟨_, b.levels, rfl, rfl⟩, rfl, hready, by simp [← hlen], ?_⟩
    have hshallow := hf.shallow
    rw [hnode, Tree.depth] at hdepth
    simp only [deepest, hdepth, List.length_cons] at hshallow ⊢
    omega

theorem Follows.leave {parent : Range} (hf : Follows tree base ⟨L, r :: parent :: path⟩ b)
    (hnext : r.next = none) (hstep : Build.step leafPush false tree b .leave = some b') :
    ∃ w', iterate ⟨L, r :: parent :: path⟩ = some (.inl w') ∧ Follows tree base w' b' ∧
      w'.path = parent.fill r.value :: path := by
  obtain ⟨cur, outer, hlevels, hstack⟩ := hf.stack
  change L.stack = _ at hstack
  have hready := hf.ready.step hf.deep hstep
  have hlen : path.length + 2 = b.levels.length := hf.depth
  have hheap : L.heap = b.heap := hf.heap
  cases outer with
  | nil =>
      rw [hlevels] at hlen
      simp at hlen
  | cons above outer =>
      have hlist : (parent.fill r.value).forest = parent.forest := by
        cases parent with
        | object done hole rest => cases hole <;> rfl
        | array idx done rest => rfl
      simp only [Build.step, hlevels] at hstep
      cases hstep
      rw [← hlevels, ← hlen] at hready
      have hparent := hready.fetch_parent rfl (by
        have hdeep := hf.deep
        rw [hlevels, List.length_cons] at hdeep
        exact Nat.lt_of_succ_lt (Nat.lt_of_succ_lt hdeep))
      have houter : (above :: outer).length = path.length + 1 := by
        rw [hlevels] at hlen
        simpa using hlen.symm
      rw [houter] at hparent
      change (b.heap.assign tree (.index (path.length + 2)) .nil).fetch tree _ = _ at hparent
      rw [← hlevels, ← hlen]
      refine ⟨⟨⟨.table above :: .table tree :: base,
        b.heap.assign tree (.index (path.length + 2)) .nil⟩, parent.fill r.value :: path⟩,
        ?_, ?_, rfl⟩
      · unfold iterate
        simp only [hnext]
        simp [LuaState.pop, LuaState.push, LuaState.rawseti, LuaState.rawgeti, LuaState.at?,
          hstack, hheap, hparent]
      · refine ⟨⟨above, outer, rfl, rfl⟩, rfl, hready, by simpa using houter.symm, ?_⟩
        have hshallow := hf.shallow
        simp only [deepest, hlist, List.length_cons] at hshallow ⊢
        omega

/-- An iteration takes the next event off the path. -/
theorem Follows.iterate {w : Walk} (hf : Follows tree base w b) {e : Event LuaVal Leaf Bool}
    {es : List (Event LuaVal Leaf Bool)} (hrem : remaining w.path = e :: es)
    (hstep : Build.step leafPush false tree b e = some b') :
    ∃ w', Emilua.iterate w = some (.inl w') ∧ Follows tree base w' b' ∧ remaining w'.path = es ∧
      finish w'.path = finish w.path := by
  obtain ⟨L, path⟩ := w
  cases path with
  | nil => cases hrem
  | cons r path =>
      cases hnext : r.next with
      | none =>
          obtain ⟨hevents, hvalue⟩ := Range.next_none hnext
          cases path with
          | nil =>
              rw [remaining, hevents] at hrem
              cases hrem
          | cons parent path =>
              simp only [remaining, hevents, List.nil_append] at hrem
              cases hrem
              obtain ⟨w', hiterate, hf', hpath⟩ := hf.leave hnext hstep
              refine ⟨w', hiterate, hf', ?_, ?_⟩
              · have hlist : (parent.fill r.value).forest = parent.forest := by
                  cases parent with
                  | object done hole rest => cases hole <;> rfl
                  | array idx done rest => rfl
                rw [hpath]
                exact @remaining_congr (parent.fill r.value) parent path []
                  (by rw [hlist, List.nil_append])
              · rw [hpath, hvalue]
                simp only [finish]
      | some item =>
          obtain ⟨key, v, r'⟩ := item
          obtain ⟨hevents, -, hfinished, hforest⟩ := Range.next_some hnext
          rcases pushLeafOrAppendPath_cases (L.push key) v with
            ⟨a, htree, hpush⟩ | ⟨child, label, htree, hpush, hchild⟩
          · rw [htree, Tree.events] at hevents
            rw [remaining_congr path hevents, List.singleton_append] at hrem
            obtain ⟨rfl, hes⟩ := List.cons.inj hrem
            obtain ⟨w', hiterate, hf', hpath⟩ := hf.leaf hnext hpush hstep
            refine ⟨w', hiterate, hf', ?_, ?_⟩
            · rw [hpath, ← hes]
              exact @remaining_congr (r'.fill v.spent) r' path []
                (by rw [hforest, List.nil_append])
            · rw [hpath]
              exact finish_congr path hfinished
          · rw [htree, Tree.events] at hevents
            rw [remaining_congr path hevents, List.cons_append] at hrem
            obtain ⟨rfl, hes⟩ := List.cons.inj hrem
            obtain ⟨w', hiterate, hf', hpath⟩ := hf.enter hnext htree hpush hstep
            refine ⟨w', hiterate, hf', ?_, ?_⟩
            · rw [hpath, ← hes, remaining, List.append_assoc, List.singleton_append]
            · rw [hpath]
              simp only [finish]
              rw [hchild]
              exact finish_congr path hfinished

/-- The loop runs through all that is left and closes the root. -/
theorem Follows.walk {w : Walk} (hf : Follows tree base w b)
    (hrun : Build.run leafPush false tree (remaining w.path) b = some b')
    (hroot : b'.levels.length = 1) :
    ∃ L' message, Emilua.walk ((remaining w.path).length + 1) w = some (L', message) ∧
      finish w.path = some message ∧ L'.heap = b'.heap ∧
      ∃ cur, b'.levels = [cur] ∧ L'.stack = .table cur :: .table tree :: base := by
  generalize hes : remaining w.path = es at hrun ⊢
  induction es generalizing w b with
  | nil =>
      obtain rfl : b = b' := by simpa [Build.run] using hrun
      obtain ⟨cur, outer, hlevels, hstack⟩ := hf.stack
      obtain rfl : outer = [] := by simpa [hlevels] using hroot
      obtain ⟨L, path⟩ := w
      have hdepth : path.length = b.levels.length := hf.depth
      obtain ⟨r, rfl⟩ := List.length_eq_one_iff.mp (hdepth.trans hroot)
      have hnone : r.next = none := by
        cases hnext : r.next with
        | none => rfl
        | some item =>
            obtain ⟨key, v, r'⟩ := item
            have hevents := (Range.next_some hnext).1
            rw [remaining] at hes
            rw [hes] at hevents
            cases htree : v.tree <;> simp [htree, Tree.events] at hevents
      refine ⟨L, r.value, ?_, ?_, hf.heap, cur, hlevels, hstack⟩
      · simp [Emilua.walk, Emilua.iterate, hnone]
      · rw [finish, (Range.next_none hnone).2]
  | cons e es ih =>
      rw [Build.run, List.foldlM_cons] at hrun
      cases hstep : Build.step leafPush false tree b e with
      | none =>
          rw [hstep] at hrun
          cases hrun
      | some b₁ =>
          rw [hstep] at hrun
          obtain ⟨w', hiterate, hf', hrem, hfinish⟩ := hf.iterate hes hstep
          obtain ⟨L', message, hwalk, hmessage, hheap, hcur⟩ := ih hf' hrem hrun
          refine ⟨L', message, ?_, hfinish ▸ hmessage, hheap, hcur⟩
          rw [List.length_cons, Emilua.walk, hiterate]
          exact hwalk

end Follows

mutual

/-- What `std::map` and `chan_send` promise of a message: the keys of an object
are distinct and arrays are counted by an `int`. -/
def Value.Sound : Value → Prop
  | .object m => (m.map Prod.fst).Nodup ∧ soundObject m
  | .array a => a.length ≤ intMax ∧ soundArray a
  | _ => True

def soundObject : List (Bytes × Value) → Prop
  | [] => True
  | (_, v) :: m => v.Sound ∧ soundObject m

def soundArray : List Value → Prop
  | [] => True
  | v :: a => v.Sound ∧ soundArray a

end

theorem treeObject_keys (m : List (Bytes × Value)) :
    (treeObject m).keys = m.map fun e => LuaVal.string e.1 := by
  induction m with
  | nil => rfl
  | cons e m ih =>
      rw [treeObject, Forest.keys, ih]
      rfl

theorem treeArray_keys (i : Nat) (a : List Value) :
    (treeArray i a).keys = (List.range' (i + 1) a.length).map LuaVal.index := by
  induction a generalizing i with
  | nil => rfl
  | cons v a ih =>
      rw [treeArray, Forest.keys, ih, List.length_cons, List.range'_succ]
      rfl

theorem treeArray_keys_nodup (i : Nat) {a : List Value} (h : i + a.length < 2 ^ 53) :
    (treeArray i a).keys.Nodup := by
  rw [treeArray_keys]
  apply List.Nodup.map_on _ List.nodup_range'
  intro m hm n hn heq
  rw [List.mem_range'_1] at hm hn
  exact LuaVal.index_injective (by omega) (by omega) heq

mutual

theorem Value.Sound.unique : {v : Value} → v.Sound → v.tree.Unique
  | .boolean _, _ | .number _, _ | .string _, _ | .fileDescriptor _, _ | .ipcActorAddress _, _
  | .address _, _ => trivial
  | .object m, h => by
      obtain ⟨hkeys, hrest⟩ := h
      refine ⟨?_, soundObject_unique hrest⟩
      rw [treeObject_keys]
      exact List.Nodup.of_map (fun key => match key with | .string k => k | _ => []) (by
        rw [List.map_map]
        exact hkeys)
  | .array a, h => by
      obtain ⟨hlen, hrest⟩ := h
      refine ⟨treeArray_keys_nodup 0 ?_, soundArray_unique 0 hrest⟩
      have hmax : intMax = 2147483647 := rfl
      omega

theorem soundObject_unique : {m : List (Bytes × Value)} → soundObject m → (treeObject m).Unique
  | [], _ => trivial
  | (_, _) :: _, h => ⟨Value.Sound.unique h.1, soundObject_unique h.2⟩

theorem soundArray_unique : (i : Nat) → {a : List Value} → soundArray a → (treeArray i a).Unique
  | _, [], _ => trivial
  | i, _ :: _, h => ⟨Value.Sound.unique h.1, soundArray_unique (i + 1) h.2⟩

end

/-- The message has been turned into `result`, with new tables and with a new
userdata for each of its addresses and descriptors. The list of open tables, if
there was need of one, is back to its first entry. -/
structure Rebuilt (L L' : LuaState) (v : Value) (result : LuaVal) : Prop where
  denotes : ∃ t, L.heap.tables.length ≤ t ∧
    Denotes leafPush false L'.heap t L.heap.userdata.length v.tree result
  objects : L'.heap.userdata = L.heap.userdata ++ objectsOf leafPush v.tree
  same : ∀ r < L.heap.tables.length, L'.heap.tables[r]? = L.heap.tables[r]?
  levels : (∃ a, v.tree = .leaf a ∧ L'.stack = result :: L.stack) ∨
    ∃ tree, L'.stack = result :: .table tree :: L.stack ∧
      L'.heap.Holds tree [(.index 1, result)]

/-- The heap once the list of open tables and the root are there. -/
def rootHeap (h : Heap) : Heap :=
  ((h.create false).create false).assign h.tables.length (.index 1) (.table (h.tables.length + 1))

theorem rootHeap_ready (h : Heap) :
    Ready h.tables.length ⟨rootHeap h, [h.tables.length + 1]⟩ ∧
      (rootHeap h).Holds (h.tables.length + 1) [] ∧
      (rootHeap h).tables.length = h.tables.length + 2 := opened_ready h false

theorem deserializerRun_container (L : LuaState) {v : Value} {r : Range} {label : Bool}
    (htree : v.tree = .node label r.forest) (hpush : pushLeafOrAppendPath L v = .inr r)
    (hfinished : r.finished = v.spent) (hunique : v.tree.Unique) (hdeep : v.tree.depth ≤ intMax) :
    ∃ L' result, deserializerRun L v = some (L', v.spent) ∧ Rebuilt L L' v result := by
  have hmax : intMax = 2147483647 := rfl
  rw [htree, Tree.depth] at hdeep
  rw [htree, Tree.Unique] at hunique
  obtain ⟨hready, hroot, hlen⟩ := rootHeap_ready L.heap
  obtain ⟨b, fields, hrun, hfields, -, hfilled⟩ :=
    @run_forest Leaf leafPush false L.heap.tables.length r.forest _ _ [] [] rfl hready hroot
      (by simpa using hunique.1) hunique.2 (by rw [List.length_singleton]; omega)
  have hlevels : b.levels = [L.heap.tables.length + 1] := hfilled.levels
  have hfollows : Follows L.heap.tables.length L.stack
      ⟨⟨.table (L.heap.tables.length + 1) :: .table L.heap.tables.length :: L.stack,
        rootHeap L.heap⟩, [r]⟩ ⟨rootHeap L.heap, [L.heap.tables.length + 1]⟩ := by
    refine ⟨⟨_, [], rfl, rfl⟩, rfl, hready, rfl, ?_⟩
    simp only [deepest, List.length_nil]
    omega
  obtain ⟨L', message, hwalk, hmessage, hheap, cur, hcur, hstack⟩ :=
    hfollows.walk hrun (by rw [hlevels]; rfl)
  rw [hlevels] at hcur
  obtain rfl : cur = L.heap.tables.length + 1 := by simpa using hcur.symm
  obtain rfl : message = v.spent := by
    rw [finish, hfinished] at hmessage
    exact (Option.some.inj hmessage).symm
  have hsteps : (remaining [r]).length + 1 = v.steps := by
    have hevents := v.events_length .nil
    rw [htree, Tree.events, List.length_cons, List.length_append, List.length_singleton] at hevents
    rw [remaining]
    omega
  rw [hsteps] at hwalk
  refine ⟨L', .table (L.heap.tables.length + 1), ?_, ⟨L.heap.tables.length + 1, by omega, ?_⟩,
    ?_, ?_, .inr ⟨_, hstack, ?_⟩⟩
  · rw [deserializerRun, hpush]
    simp only [LuaState.newtable, LuaState.pushvalue, LuaState.at?, LuaState.rawseti]
    simp only [Heap.create] at hwalk ⊢
    simpa [LuaState.push, rootHeap, Heap.create] using hwalk
  · rw [htree, hheap]
    refine ⟨rfl, ?_, fields, by simpa using hfilled.holds, ?_⟩
    · rw [hfilled.grown.metatable _ (by rw [hlen]; omega)]
      simp [rootHeap, Heap.assign, Heap.create]
    · have hbelow := hfields
      rw [hlen] at hbelow
      exact hbelow
  · rw [hheap, hfilled.grown.userdata, htree]
    rfl
  · intro t ht
    rw [hheap, hfilled.grown.same t (by rw [hlen]; omega) (by simp; omega), rootHeap,
      Heap.assign_ne _ _ _ (by omega), Heap.create_same _ _ (by simp [Heap.create]; omega),
      Heap.create_same _ _ ht]
  · have hlisted := hfilled.ready.listed
    rw [hlevels] at hlisted
    rw [hheap]
    exact hlisted

/-- Every message is rebuilt as what it denotes, and is left empty-handed. -/
theorem deserializerRun_rebuilds (L : LuaState) (v : Value) (hsound : v.Sound)
    (hdeep : v.tree.depth ≤ intMax) :
    ∃ L' result, deserializerRun L v = some (L', v.spent) ∧ Rebuilt L L' v result := by
  rcases pushLeafOrAppendPath_cases L v with ⟨a, htree, hpush⟩ | ⟨r, label, htree, hpush, hfinished⟩
  · refine ⟨⟨leafPush.value L.heap.userdata.length a :: L.stack,
      { L.heap with userdata := L.heap.userdata ++ leafPush.objects a }⟩,
      leafPush.value L.heap.userdata.length a, by simp only [deserializerRun, hpush],
      ⟨L.heap.tables.length, Nat.le_refl _, ?_⟩, ?_, fun _ _ => rfl, .inl ⟨a, htree, rfl⟩⟩
    · rw [htree]
      rfl
    · rw [htree]
      simp [objectsOf, Tree.leaves]
  · exact deserializerRun_container L htree hpush hfinished hsound.unique hdeep

/-! Where the boxes and the addresses go. -/

def Userdata.boxed : Userdata → List Int
  | .fileDescriptor fd | .ipcActorChan fd => [fd]
  | .txChan _ | .inbox | .bare | .foreign => []

def Userdata.target : Userdata → List VmId
  | .txChan dest => dest.toList
  | .fileDescriptor _ | .ipcActorChan _ | .inbox | .bare | .foreign => []

mutual

/-- The new userdata are the boxes and addresses of the message, each once. -/
theorem Value.objects_moved : (v : Value) →
    (v.tree.leaves.flatMap leafPush.objects).flatMap Userdata.boxed = v.boxes ∧
      (v.tree.leaves.flatMap leafPush.objects).flatMap Userdata.target = v.addresses
  | .boolean _ | .number _ | .string _ | .fileDescriptor _ | .ipcActorAddress _ => ⟨rfl, rfl⟩
  | .address _ => ⟨rfl, List.append_nil _⟩
  | .object m => treeObject_moved m
  | .array a => treeArray_moved 0 a

theorem treeObject_moved : (m : List (Bytes × Value)) →
    ((treeObject m).leaves.flatMap leafPush.objects).flatMap Userdata.boxed = boxesObject m ∧
      ((treeObject m).leaves.flatMap leafPush.objects).flatMap Userdata.target = addressesObject m
  | [] => ⟨rfl, rfl⟩
  | (_, v) :: m => by
      simp only [treeObject, Forest.leaves, List.flatMap_append, v.objects_moved.1,
        v.objects_moved.2, (treeObject_moved m).1, (treeObject_moved m).2, boxesObject,
        addressesObject, and_self]

theorem treeArray_moved : (i : Nat) → (a : List Value) →
    ((treeArray i a).leaves.flatMap leafPush.objects).flatMap Userdata.boxed = boxesArray a ∧
      ((treeArray i a).leaves.flatMap leafPush.objects).flatMap Userdata.target = addressesArray a
  | _, [] => ⟨rfl, rfl⟩
  | i, v :: a => by
      simp only [treeArray, Forest.leaves, List.flatMap_append, v.objects_moved.1,
        v.objects_moved.2, (treeArray_moved (i + 1) a).1, (treeArray_moved (i + 1) a).2,
        boxesArray, addressesArray, and_self]

end

mutual

theorem Value.spent_empty : (v : Value) → (∀ box ∈ v.spent.boxes, box = -1) ∧ v.spent.addresses = []
  | .boolean _ | .number _ | .string _ | .fileDescriptor _ | .ipcActorAddress _ | .address _ => by
      simp [Value.spent, Value.boxes, Value.addresses]
  | .object m => spentObject_empty m
  | .array a => spentArray_empty a

theorem spentObject_empty : (m : List (Bytes × Value)) →
    (∀ box ∈ boxesObject (spentObject m), box = -1) ∧ addressesObject (spentObject m) = []
  | [] => by simp [spentObject, boxesObject, addressesObject]
  | (_, v) :: m => by
      simp only [spentObject, boxesObject, addressesObject, v.spent_empty.2,
        (spentObject_empty m).2, List.append_nil, and_true]
      intro box hbox
      rcases List.mem_append.mp hbox with hbox | hbox
      · exact v.spent_empty.1 box hbox
      · exact (spentObject_empty m).1 box hbox

theorem spentArray_empty : (a : List Value) →
    (∀ box ∈ boxesArray (spentArray a), box = -1) ∧ addressesArray (spentArray a) = []
  | [] => by simp [spentArray, boxesArray, addressesArray]
  | v :: a => by
      simp only [spentArray, boxesArray, addressesArray, v.spent_empty.2,
        (spentArray_empty a).2, List.append_nil, and_true]
      intro box hbox
      rcases List.mem_append.mp hbox with hbox | hbox
      · exact v.spent_empty.1 box hbox
      · exact (spentArray_empty a).1 box hbox

end

/-- The closure builds the value that a message denotes. Each box and address of
the message ends up in one new userdata, and none is left behind. -/
theorem deserializer_builds_message (L : LuaState) (v : Value) (hsound : v.Sound)
    (hdeep : v.tree.depth ≤ intMax) :
    (∃ L' result, deserializerRun L v = some (L', v.spent) ∧ Rebuilt L L' v result) ∧
      (objectsOf leafPush v.tree).flatMap Userdata.boxed = v.boxes ∧
      (objectsOf leafPush v.tree).flatMap Userdata.target = v.addresses ∧
      (∀ box ∈ v.spent.boxes, box = -1) ∧ v.spent.addresses = [] :=
  ⟨deserializerRun_rebuilds L v hsound hdeep, v.objects_moved.1, v.objects_moved.2,
    v.spent_empty.1, v.spent_empty.2⟩

def nestedMessage : Value :=
  .object [([97], .array [.object [], .fileDescriptor 3, .array [.boolean true]]),
    ([98], .address (some 1))]

theorem nestedMessage_builds :
    (∃ L' result, deserializerRun ⟨[], .empty⟩ nestedMessage = some (L', nestedMessage.spent) ∧
      Rebuilt ⟨[], .empty⟩ L' nestedMessage result) ∧
      (objectsOf leafPush nestedMessage.tree).flatMap Userdata.boxed = [3] ∧
      (objectsOf leafPush nestedMessage.tree).flatMap Userdata.target = [1] ∧
      (∀ box ∈ nestedMessage.spent.boxes, box = -1) ∧ nestedMessage.spent.addresses = [] :=
  deserializer_builds_message ⟨[], .empty⟩ nestedMessage
    (by simp [nestedMessage, Value.Sound, soundObject, soundArray, intMax])
    (by decide)

/-! Messages without nested containers. -/

theorem Leaf.tree_toValue (l : Leaf) : l.toValue.tree = .leaf l := by
  cases l <;> rfl

/-- A leaf is what it was in the message, once its own userdata are there. -/
theorem leaf_leafPush {h : Heap} {pre post : List Userdata} (l : Leaf)
    (huserdata : h.userdata = pre ++ (leafPush.objects l ++ post)) :
    h.leaf (leafPush.value pre.length l) = some l := by
  cases l with
  | boolean b => rfl
  | number n => rfl
  | string s => rfl
  | fileDescriptor fd | ipcActorChan fd | txChan dest =>
      simp [leafPush, Heap.leaf, huserdata]

theorem lookup_treeObject {h : Heap} {t : Nat} {es : List (Bytes × Leaf)}
    {fields : List (LuaVal × LuaVal)} {pre post : List Userdata}
    (hfields : DenotesForest leafPush false h t pre.length
      (treeObject (es.map fun e => (e.1, e.2.toValue))) fields)
    (huserdata : h.userdata =
      pre ++ ((treeObject (es.map fun e => (e.1, e.2.toValue))).leaves.flatMap leafPush.objects
        ++ post)) (key : LuaVal) :
    (fields.lookup key).map h.leaf =
      (match key with | .string k => es.lookup k | _ => none).map some := by
  induction es generalizing t pre fields with
  | nil =>
      obtain rfl : fields = [] := hfields
      cases key <;> rfl
  | cons e es ih =>
      obtain ⟨k, l⟩ := e
      simp only [List.map_cons, treeObject, Leaf.tree_toValue, Forest.leaves, Tree.leaves,
        List.flatMap_append, List.flatMap_singleton, List.append_assoc] at hfields huserdata
      obtain ⟨v, fields', rfl, hchild, hrest⟩ := hfields
      obtain rfl : v = leafPush.value pre.length l := hchild
      have hrest' := @ih _ _ (pre ++ leafPush.objects l) (by simpa [Tree.leaves] using hrest)
        (by simpa using huserdata)
      by_cases hkey : key = .string k
      · subst hkey
        simp [leaf_leafPush l huserdata]
      · have hbeq : (key == LuaVal.string k) = false := by simpa using hkey
        rw [List.lookup_cons, hbeq]
        refine hrest'.trans ?_
        cases key with
        | string k' =>
            have hne : (k' == k) = false := by simpa using hkey
            simp only [List.lookup_cons, hne]
        | nil | boolean _ | number _ | table _ | userdata _ | function _ | thread _
        | lightuserdata _ | cdata _ => rfl

theorem deserializerClosure_leaf (h : Heap) (l : Leaf) :
    (deserializerClosure h l.toValue).map (fun r => r.2.view r.1) = some (.leaf (some l)) := by
  have hview := h.view_pushLeaf l
  cases l <;> exact congrArg some hview

theorem deserializerClosure_leafObject (h : Heap) {es : List (Bytes × Leaf)}
    (hkeys : (es.map Prod.fst).Nodup) :
    (deserializerClosure h (leafObject es)).map (fun r => r.2.view r.1) =
      some (.table fun key => (tableOf es key).map some) := by
  have hsound : (leafObject es).Sound := by
    refine ⟨by simpa [List.map_map, Function.comp_def] using hkeys, ?_⟩
    clear hkeys
    induction es with
    | nil => trivial
    | cons e es ih => exact ⟨by cases e.2 <;> trivial, ih⟩
  have hdepth : (treeObject (es.map fun e => (e.1, e.2.toValue))).depth = 0 := by
    clear hkeys hsound
    induction es with
    | nil => rfl
    | cons e es ih => rw [List.map_cons, treeObject, Forest.depth, Leaf.tree_toValue, ih]; rfl
  have hdeep : (leafObject es).tree.depth ≤ intMax := by
    rw [leafObject, Value.tree, Tree.depth, hdepth]
    exact show 1 ≤ 2147483647 by decide
  obtain ⟨L', result, hrun, hbuilt⟩ := deserializerRun_rebuilds ⟨[], h⟩ _ hsound hdeep
  obtain ⟨t, -, hresult⟩ := hbuilt.denotes
  obtain ⟨rfl, -, fields, hholds, hfields⟩ := hresult
  have hstack : L'.at? 1 = some (.table t) := by
    rcases hbuilt.levels with ⟨a, -, hstack⟩ | ⟨tree, hstack, -⟩ <;> simp [LuaState.at?, hstack]
  rw [deserializerClosure, hrun, Option.bind_some, hstack, Option.map_some, Option.map_some,
    Heap.view]
  congr 2
  funext key
  rw [hholds.fields, @lookup_treeObject _ _ _ _ _ [] hfields (by
    rw [List.append_nil]
    exact hbuilt.objects)]
  cases key with
  | string k => rw [tableOf, lookup_reverse hkeys]
  | nil | boolean _ | number _ | table _ | userdata _ | function _ | thread _
  | lightuserdata _ | cdata _ => rfl

end Emilua
