import Emilua.Json.Decode

/-!
What `json.decode` makes of a document. The loop follows the builder, and what
is built for a document is the value it denotes: of the members with one key
the last.
-/
namespace Emilua.Json
open Wire Keyed

/-- Leaves turn into values of their own. -/
def scalarPush (env : Env) : Leaves Scalar where
  value _ := env.value
  objects _ := []
  value_ne _ a := by cases a <;> nofun

/-- Where the next value of a level is stored. -/
def PathKey.slot : PathKey → LuaVal
  | .key s => .string s
  | .index n => .index (n + 1)

def PathKey.advance : PathKey → PathKey
  | .key s => .key s
  | .index n => .index (n + 1)

/-- An array has room for one more. -/
def PathKey.Room : PathKey → Prop
  | .key _ => True
  | .index n => n < arrayKeyMax

/-- The top slots of the stack are the innermost open table and the list of the
open ones, and the path has a key for each of them. -/
structure Follows (tree : Nat) (base : List LuaVal) (d : Decoder) (b : Build) : Prop where
  stack : ∃ cur outer, b.levels = cur :: outer ∧ d.L.stack = .table cur :: .table tree :: base
  heap : d.L.heap = b.heap
  ready : Ready tree b
  depth : d.path.length = b.levels.length
  shallow : d.path.length ≤ arrayKeyMax

section
variable {env : Env} {tree : Nat} {base : List LuaVal} {d : Decoder} {b b' : Build} {k : PathKey} {path : List PathKey}

theorem Follows.deep (hf : Follows tree base d b) : b.levels.length + 1 < 2 ^ 53 := by
  have hshallow := hf.shallow
  have hdepth := hf.depth
  have hmax : arrayKeyMax = 2147483647 := rfl
  omega

theorem step_scalar {cur : Nat} {outer : List Nat} (hlevels : b.levels = cur :: outer) (key : LuaVal) (a : Scalar) :
    Build.step (scalarPush env) true tree b (.leaf key a) = some { b with heap := b.heap.assign cur key (env.value a) } := by
  rw [Build.step_leaf_eq hlevels]
  simp only [scalarPush, List.append_nil]

theorem Follows.leaf (hf : Follows tree base d b) (hpath : d.path = k :: path) (hroom : k.Room) (a : Scalar)
    (hstep : Build.step (scalarPush env) true tree b (.leaf k.slot a) = some b') :
    ∃ d', onLeaf env d a = some (.ok d') ∧ Follows tree base d' b' ∧ d'.path = k.advance :: path := by
  obtain ⟨L, path'⟩ := d
  obtain rfl : path' = k :: path := hpath
  obtain ⟨cur, outer, hlevels, hstack⟩ := hf.stack
  have hheap : L.heap = b.heap := hf.heap
  change L.stack = _ at hstack
  rw [step_scalar hlevels] at hstep
  cases hstep
  have hready := hf.ready.assign hlevels rfl k.slot (env.value a)
  refine ⟨⟨⟨.table cur :: .table tree :: base, L.heap.assign cur k.slot (env.value a)⟩, k.advance :: path⟩, ?_,
    ⟨⟨cur, outer, hlevels, rfl⟩, by rw [hheap], hready, hf.depth, hf.shallow⟩, rfl⟩
  cases k with
  | key s =>
      simp [onLeaf, LuaState.push, LuaState.rawset, LuaState.at?, hstack, PathKey.slot, PathKey.advance]
  | index n =>
      have hne : n ≠ arrayKeyMax := Nat.ne_of_lt hroom
      simp [onLeaf, LuaState.push, LuaState.rawseti, LuaState.at?, hstack, PathKey.slot, PathKey.advance, hne]

theorem tagged_create (h : Heap) : tagged (h.create false) h.tables.length = h.create true := by
  simp [tagged, Heap.create, List.modify_eq_take_cons_drop]

theorem tagged_assign (h : Heap) {cur new : Nat} (hne : cur ≠ new) (key value : LuaVal) :
    tagged (h.assign cur key value) new = (tagged h new).assign cur key value := by
  simp only [tagged, Heap.assign, List.modify_modify_ne _ _ _ hne.symm]

/-- A new table is made a field, and its metatable set. -/
theorem attach_eq {L : LuaState} {cur : Nat} {base : List LuaVal} (hstack : L.stack = .table cur :: base)
    (hroom : k.Room) : attach L.newtable (k :: path) = some (.ok
      (⟨.table L.heap.tables.length :: L.stack, (L.heap.create false).assign cur k.slot (.table L.heap.tables.length)⟩,
        k.advance :: path)) := by
  cases k with
  | key s =>
      simp [attach, LuaState.newtable, LuaState.pushvalue, LuaState.push, LuaState.insert, LuaState.rawset, LuaState.at?,
        hstack, PathKey.slot, PathKey.advance]
  | index n =>
      have hne : n ≠ arrayKeyMax := Nat.ne_of_lt hroom
      simp [attach, LuaState.newtable, LuaState.pushvalue, LuaState.push, LuaState.rawseti, LuaState.at?, hstack,
        PathKey.slot, PathKey.advance, hne]

def startKey (array : Bool) : PathKey := if array then .index 0 else .key []

theorem Follows.enter (hf : Follows tree base d b) (hpath : d.path = k :: path) (hroom : k.Room)
    (hlevel : d.path.length < arrayKeyMax) (array : Bool)
    (hstep : Build.step (scalarPush env) true tree b (.enter k.slot array) = some b') :
    ∃ d', beginNode array d = some (.ok d') ∧ Follows tree base d' b' ∧ d'.path = startKey array :: k.advance :: path := by
  obtain ⟨L, path'⟩ := d
  obtain rfl : path' = k :: path := hpath
  obtain ⟨cur, outer, hlevels, hstack⟩ := hf.stack
  have hheap : L.heap = b.heap := hf.heap
  have hdepth : path.length + 1 = b.levels.length := hf.depth
  change L.stack = _ at hstack
  change path.length + 1 < arrayKeyMax at hlevel
  have hready := hf.ready.step hf.deep hstep
  have hne : cur ≠ b.heap.tables.length := Nat.ne_of_lt (hf.ready.lt hlevels)
  rw [Build.step_enter_eq hlevels, ← hdepth, Bool.true_and] at hstep
  cases hstep
  refine ⟨⟨⟨.table b.heap.tables.length :: .table tree :: base,
    ((b.heap.create array).assign cur k.slot (.table b.heap.tables.length)).assign tree (.index (path.length + 1 + 1))
      (.table b.heap.tables.length)⟩, startKey array :: k.advance :: path⟩, ?_,
    ⟨⟨_, b.levels, rfl, rfl⟩, rfl, hready, by simp [← hdepth], hlevel⟩, rfl⟩
  have hattach := @attach_eq k path L cur _ hstack hroom
  rw [hheap] at hattach
  simp only [beginNode, List.length_cons, if_neg (Nat.ne_of_lt hlevel), hattach, Option.bind_eq_bind, Option.bind_some]
  cases array with
  | true =>
      simp [setArray, tagged_assign _ hne, tagged_create, LuaState.remove, LuaState.pushvalue, LuaState.push,
        LuaState.rawseti, LuaState.at?, hstack, startKey]
  | false =>
      simp [LuaState.remove, LuaState.pushvalue, LuaState.push, LuaState.rawseti, LuaState.at?, hstack, startKey]

theorem Follows.leave {key : PathKey} (hf : Follows tree base d b) (hpath : d.path = k :: key :: path)
    (hstep : Build.step (scalarPush env) true tree b .leave = some b') :
    ∃ d', endNode d = some (.ok d') ∧ Follows tree base d' b' ∧ d'.path = key :: path := by
  obtain ⟨L, path'⟩ := d
  obtain rfl : path' = k :: key :: path := hpath
  obtain ⟨cur, outer, hlevels, hstack⟩ := hf.stack
  have hheap : L.heap = b.heap := hf.heap
  have hdepth : path.length + 2 = b.levels.length := hf.depth
  have hshallow : path.length + 2 ≤ arrayKeyMax := hf.shallow
  change L.stack = _ at hstack
  have hready := hf.ready.step hf.deep hstep
  cases outer with
  | nil => simp [hlevels] at hdepth
  | cons above outer =>
      simp only [Build.step, hlevels] at hstep
      cases hstep
      rw [← hlevels, ← hdepth] at hready
      have hlen : (above :: outer).length = path.length + 1 := by
        rw [hlevels] at hdepth
        simpa using hdepth.symm
      have hparent := hready.fetch_parent rfl (by
        have hdeep := hf.deep
        rw [hlevels, List.length_cons] at hdeep
        exact Nat.lt_of_succ_lt (Nat.lt_of_succ_lt hdeep))
      rw [hlen] at hparent
      change (b.heap.assign tree (.index (path.length + 2)) .nil).fetch tree _ = _ at hparent
      rw [← hlevels, ← hdepth]
      refine ⟨⟨⟨.table above :: .table tree :: base, b.heap.assign tree (.index (path.length + 2)) .nil⟩, key :: path⟩, ?_,
        ⟨⟨above, outer, rfl, rfl⟩, rfl, hready, hlen.symm, Nat.le_of_succ_le hshallow⟩, rfl⟩
      simp [endNode, LuaState.pop, LuaState.push, LuaState.rawseti, LuaState.rawgeti, LuaState.at?, hstack, hheap, hparent]

theorem decodeTokens_append {ts ts' : List Token} {d' : Decoder} (h : decodeTokens env ts d = some (.ok d')) :
    decodeTokens env (ts ++ ts') d = decodeTokens env ts' d' := by
  induction ts generalizing d with
  | nil =>
      cases h
      rfl
  | cons t ts ih =>
      rw [decodeTokens] at h
      rw [List.cons_append, decodeTokens]
      split at h
      · rename_i hstep
        exact ih h
      · rename_i hno
        exact absurd h (hno d')

theorem decodeTokens_cons {t : Token} {d' : Decoder} (h : t.step env d = some (.ok d')) (ts : List Token) :
    decodeTokens env (t :: ts) d = decodeTokens env ts d' := by
  rw [decodeTokens, h]

theorem Scalar.token_step (a : Scalar) : a.token.step env d = onLeaf env d a := by
  cases a <;> rfl

variable (env) in
/-- The container on top is open, and its children come next. -/
theorem Follows.open (hf : Follows tree base d b) (hpath : d.path = k :: path) (hroom : k.Room)
    (hlevel : d.path.length < arrayKeyMax) (array : Bool) :
    ∃ d' b', beginNode array d = some (.ok d') ∧ Build.step (scalarPush env) true tree b (.enter k.slot array) = some b' ∧
      Follows tree base d' b' ∧ d'.path = startKey array :: k.advance :: path := by
  obtain ⟨cur, outer, hlevels, -⟩ := hf.stack
  have hstep := @Build.step_enter_eq Scalar (scalarPush env) true tree b cur outer hlevels k.slot array
  obtain ⟨d', hbegin, hf', hpath'⟩ := hf.enter hpath hroom hlevel array hstep
  exact ⟨d', _, hbegin, hstep, hf', hpath'⟩

variable (env) in
theorem Follows.close {key : PathKey} (hf : Follows tree base d b) (hpath : d.path = k :: key :: path) :
    ∃ d' b', endNode d = some (.ok d') ∧ Build.step (scalarPush env) true tree b .leave = some b' ∧
      Follows tree base d' b' ∧ d'.path = key :: path := by
  obtain ⟨cur, outer, hlevels, -⟩ := hf.stack
  cases outer with
  | nil =>
      have hdepth := hf.depth
      simp [hpath, hlevels] at hdepth
  | cons above outer =>
      have hstep : Build.step (scalarPush env) true tree b .leave =
          some ⟨b.heap.assign tree (.index b.levels.length) .nil, above :: outer⟩ := by
        simp only [Build.step, hlevels]
      obtain ⟨d', hend, hf', hpath'⟩ := hf.leave hpath hstep
      exact ⟨d', _, hend, hstep, hf', hpath'⟩

theorem run_single {b' : Build} {e : Event LuaVal Scalar Bool} (h : Build.step (scalarPush env) true tree b e = some b') :
    Build.run (scalarPush env) true tree [e] b = some b' := by
  rw [Build.run, List.foldlM_cons, h]
  rfl

/-- A container, from the token that opens it to the one that closes it. -/
theorem follows_node (start finish : Token) {array : Bool} {ts : List Token} {f : Forest LuaVal Scalar Bool}
    {d₁ d₂ : Decoder} {b₁ b₂ : Build} {key : PathKey} (hbegin : start.step env d = some (.ok d₁))
    (henter : Build.step (scalarPush env) true tree b (.enter k.slot array) = some b₁)
    (hrun : decodeTokens env ts d₁ = some (.ok d₂)) (hbuild : Build.run (scalarPush env) true tree f.events b₁ = some b₂)
    (hfinish : ∀ d, finish.step env d = endNode d) (hf : Follows tree base d₂ b₂)
    (hpath : d₂.path = key :: k.advance :: path) :
    ∃ d' b', decodeTokens env (start :: (ts ++ [finish])) d = some (.ok d') ∧
      Build.run (scalarPush env) true tree (.enter k.slot array :: (f.events ++ [.leave])) b = some b' ∧
      Follows tree base d' b' ∧ d'.path = k.advance :: path := by
  obtain ⟨d', b', hend, hleave, hf', hpath'⟩ := hf.close env hpath
  refine ⟨d', b', ?_, ?_, hf', hpath'⟩
  · rw [decodeTokens_cons hbegin, decodeTokens_append hrun, decodeTokens_cons ((hfinish d₂).trans hend)]
    rfl
  · rw [← List.singleton_append, Build.run_append, run_single henter, Option.bind_some, Build.run_append, hbuild,
      Option.bind_some, run_single hleave]

variable (env) in
mutual

/-- The tokens of a document make a field of the innermost open table. -/
theorem follows_doc : (doc : Doc) → {d : Decoder} → {b : Build} → {k : PathKey} → {path : List PathKey} →
    Follows tree base d b → d.path = k :: path → k.Room → d.path.length + doc.tree.depth ≤ arrayKeyMax → doc.Short →
    ∃ d' b', decodeTokens env doc.tokens d = some (.ok d') ∧
      Build.run (scalarPush env) true tree (doc.tree.events k.slot) b = some b' ∧
      Follows tree base d' b' ∧ d'.path = k.advance :: path
  | .leaf a, d, b, k, path, hf, hpath, hroom, _, _ => by
      obtain ⟨cur, outer, hlevels, -⟩ := hf.stack
      have hstep := @step_scalar env tree b cur outer hlevels k.slot a
      obtain ⟨d', hleaf, hf', hpath'⟩ := hf.leaf hpath hroom a hstep
      refine ⟨d', _, ?_, run_single hstep, hf', hpath'⟩
      rw [Doc.tokens, decodeTokens_cons (a.token_step.trans hleaf)]
      rfl
  | .array es, d, b, k, path, hf, hpath, hroom, hdepth, hshort => by
      rw [Doc.tree, Tree.depth] at hdepth
      obtain ⟨d₁, b₁, hbegin, henter, hf₁, hpath₁⟩ := hf.open env hpath hroom (by omega) true
      have hlen : d₁.path.length = d.path.length + 1 := by rw [hpath₁, hpath, List.length_cons, List.length_cons, List.length_cons]
      obtain ⟨d₂, b₂, hrun, hbuild, hf₂, hpath₂⟩ := follows_elements es 0 hf₁ hpath₁ (by simpa using hshort.1) (by omega) hshort.2
      exact follows_node .beginArray .endArray hbegin henter hrun hbuild (fun _ => rfl) hf₂ hpath₂
  | .object ms, d, b, k, path, hf, hpath, hroom, hdepth, hshort => by
      rw [Doc.tree, Tree.depth] at hdepth
      obtain ⟨d₁, b₁, hbegin, henter, hf₁, hpath₁⟩ := hf.open env hpath hroom (by omega) false
      have hlen : d₁.path.length = d.path.length + 1 := by rw [hpath₁, hpath, List.length_cons, List.length_cons, List.length_cons]
      obtain ⟨d₂, b₂, key, hrun, hbuild, hf₂, hpath₂⟩ := follows_members ms hf₁ hpath₁ (by omega) hshort
      exact follows_node .beginObject .endObject hbegin henter hrun hbuild (fun _ => rfl) hf₂ hpath₂

theorem follows_elements : (es : List Doc) → (i : Nat) → {d : Decoder} → {b : Build} → {path : List PathKey} →
    Follows tree base d b → d.path = .index i :: path → i + es.length ≤ arrayKeyMax →
    d.path.length + (treeElements i es).depth ≤ arrayKeyMax → shortElements es →
    ∃ d' b', decodeTokens env (arrayTokens es) d = some (.ok d') ∧
      Build.run (scalarPush env) true tree (treeElements i es).events b = some b' ∧
      Follows tree base d' b' ∧ d'.path = .index (i + es.length) :: path
  | [], i, d, b, path, hf, hpath, _, _, _ => ⟨d, b, rfl, rfl, hf, hpath⟩
  | e :: es, i, d, b, path, hf, hpath, hcount, hdepth, hshort => by
      rw [treeElements, Forest.depth] at hdepth
      rw [List.length_cons] at hcount
      obtain ⟨d₁, b₁, hrun₁, hbuild₁, hf₁, hpath₁⟩ := follows_doc e hf hpath (show i < arrayKeyMax by omega) (by omega) hshort.1
      have hlen : d₁.path.length = d.path.length := by rw [hpath₁, hpath, List.length_cons, List.length_cons]
      obtain ⟨d₂, b₂, hrun₂, hbuild₂, hf₂, hpath₂⟩ :=
        follows_elements es (i + 1) hf₁ hpath₁ (by omega) (by omega) hshort.2
      refine ⟨d₂, b₂, ?_, ?_, hf₂, by rw [hpath₂, List.length_cons, Nat.add_right_comm, Nat.add_assoc]⟩
      · rw [arrayTokens, decodeTokens_append hrun₁, hrun₂]
      · rw [treeElements, Forest.events, Build.run_append]
        exact (congrArg (Option.bind · _) hbuild₁).trans hbuild₂

theorem follows_members : (ms : List (Bytes × Doc)) → {d : Decoder} → {b : Build} → {k : PathKey} → {path : List PathKey} →
    Follows tree base d b → d.path = k :: path →
    d.path.length + (treeMembers ms).depth ≤ arrayKeyMax → shortMembers ms →
    ∃ d' b' k', decodeTokens env (objectTokens ms) d = some (.ok d') ∧
      Build.run (scalarPush env) true tree (treeMembers ms).events b = some b' ∧
      Follows tree base d' b' ∧ d'.path = k' :: path
  | [], d, b, k, path, hf, hpath, _, _ => ⟨d, b, k, rfl, rfl, hf, hpath⟩
  | (key, v) :: ms, d, b, k, path, hf, hpath, hdepth, hshort => by
      rw [treeMembers, Forest.depth] at hdepth
      have hkey : (Token.key key).step env d = some (.ok ⟨d.L, .key key :: path⟩) := by simp [Token.step, hpath]
      have hlen : (PathKey.key key :: path).length = d.path.length := by rw [hpath, List.length_cons, List.length_cons]
      have hf₀ : Follows tree base ⟨d.L, .key key :: path⟩ b :=
        ⟨hf.stack, hf.heap, hf.ready, hlen.trans hf.depth, hlen.le.trans hf.shallow⟩
      obtain ⟨d₁, b₁, hrun₁, hbuild₁, hf₁, hpath₁⟩ := follows_doc v hf₀ rfl trivial (by
        change (PathKey.key key :: path).length + _ ≤ _
        omega) hshort.1
      have hlen₁ : d₁.path.length = d.path.length := by rw [hpath₁, hpath, List.length_cons, List.length_cons]
      obtain ⟨d₂, b₂, k', hrun₂, hbuild₂, hf₂, hpath₂⟩ := follows_members ms hf₁ hpath₁ (by omega) hshort.2
      refine ⟨d₂, b₂, k', ?_, ?_, hf₂, hpath₂⟩
      · rw [objectTokens, decodeTokens_cons hkey, decodeTokens_append hrun₁, hrun₂]
      · rw [treeMembers, Forest.events, Build.run_append]
        exact (congrArg (Option.bind · _) hbuild₁).trans hbuild₂

end

end

/-! The values that documents denote. -/

inductive Dom where
  | leaf (a : Scalar)
  | array (es : List Dom)
  | object (ms : List (Bytes × Dom))

/-- Of the entries with one key the last. -/
def lastOf {κ β : Type} [DecidableEq κ] : List (κ × β) → List (κ × β)
  | [] => []
  | e :: es => if e.1 ∈ es.map Prod.fst then lastOf es else e :: lastOf es

mutual

def Doc.dom : Doc → Dom
  | .leaf a => .leaf a
  | .array es => .array (domElements es)
  | .object ms => .object (lastOf (domMembers ms))

def domElements : List Doc → List Dom
  | [] => []
  | e :: es => e.dom :: domElements es

def domMembers : List (Bytes × Doc) → List (Bytes × Dom)
  | [] => []
  | (k, v) :: ms => (k, v.dom) :: domMembers ms

end

mutual

/-- A Lua value is the one denoted: arrays have the metatable of arrays and
their elements in order, objects just these members. -/
def Shows (env : Env) (h : Heap) : Dom → LuaVal → Prop
  | .leaf a, v => v = env.value a
  | .array es, v => ∃ t vs, v = .table t ∧ (h.tables[t]?).map LuaTable.metatable = some true ∧ h.Holds t (sequence vs) ∧
      showsElements env h es vs
  | .object ms, v => ∃ t fs, v = .table t ∧ (h.tables[t]?).map LuaTable.metatable = some false ∧ h.Holds t fs ∧
      showsMembers env h ms fs

def showsElements (env : Env) (h : Heap) : List Dom → List LuaVal → Prop
  | [], vs => vs = []
  | e :: es, vs => ∃ v vs', vs = v :: vs' ∧ Shows env h e v ∧ showsElements env h es vs'

def showsMembers (env : Env) (h : Heap) : List (Bytes × Dom) → List (LuaVal × LuaVal) → Prop
  | [], fs => fs = []
  | (k, e) :: ms, fs => ∃ v fs', fs = (.string k, v) :: fs' ∧ Shows env h e v ∧ showsMembers env h ms fs'

end

section
variable {env : Env} {h : Heap}

theorem mem_lastOf_keys {κ β : Type} [DecidableEq κ] {es : List (κ × β)} {key : κ} :
    key ∈ (lastOf es).map Prod.fst ↔ key ∈ es.map Prod.fst := by
  induction es with
  | nil => rfl
  | cons e es ih =>
      rw [lastOf]
      split
      · rename_i hmem
        rw [ih, List.map_cons, List.mem_cons]
        refine ⟨.inr, fun hkey => hkey.elim (fun heq => heq ▸ hmem) id⟩
      · rw [List.map_cons, List.mem_cons, ih, List.map_cons, List.mem_cons]

theorem lookup_single (e : LuaVal × LuaVal) (key : LuaVal) : [e].lookup key = if key = e.1 then some e.2 else none := by
  rw [List.lookup_cons]
  by_cases hk : key = e.1
  · rw [hk, beq_self_eq_true, if_pos rfl]
  · rw [beq_false_of_ne hk, if_neg hk]
    rfl

theorem lookup_of_mem {es : List (LuaVal × LuaVal)} {key : LuaVal} (hmem : key ∈ es.map Prod.fst) :
    ∃ v, es.lookup key = some v := by
  refine Option.ne_none_iff_exists'.mp fun hnone => ?_
  obtain ⟨e, he, rfl⟩ := List.mem_map.mp hmem
  have hno := List.lookup_eq_none_iff.mp hnone e he
  simp at hno

theorem lookup_lastOf (es : List (LuaVal × LuaVal)) (key : LuaVal) : (lastOf es).lookup key = es.reverse.lookup key := by
  induction es with
  | nil => rfl
  | cons e es ih =>
      rw [List.reverse_cons, List.lookup_append, ← ih, lookup_single, lastOf]
      by_cases hmem : e.1 ∈ es.map Prod.fst
      · rw [if_pos hmem]
        by_cases hk : key = e.1
        · obtain ⟨v, hv⟩ := lookup_of_mem (mem_lastOf_keys.mpr hmem)
          rw [hk, hv, Option.some_or]
        · rw [if_neg hk, Option.or_none]
      · rw [if_neg hmem, List.lookup_cons]
        by_cases hk : key = e.1
        · rw [hk, beq_self_eq_true, if_pos rfl, Heap.lookup_fresh (mt mem_lastOf_keys.mp hmem), Option.none_or]
        · rw [beq_false_of_ne hk, if_neg hk, Option.or_none]

theorem showsMembers_keys {ms : List (Bytes × Dom)} {fs : List (LuaVal × LuaVal)} (hs : showsMembers env h ms fs) :
    fs.map Prod.fst = ms.map fun m => .string m.1 := by
  induction ms generalizing fs with
  | nil =>
      rw [hs]
      rfl
  | cons m ms ih =>
      obtain ⟨v, fs', rfl, -, hrest⟩ := hs
      rw [List.map_cons, List.map_cons, ih hrest]

theorem showsMembers_lastOf {ms : List (Bytes × Dom)} {fs : List (LuaVal × LuaVal)} (hs : showsMembers env h ms fs) :
    showsMembers env h (lastOf ms) (lastOf fs) := by
  induction ms generalizing fs with
  | nil =>
      rw [hs]
      rfl
  | cons m ms ih =>
      obtain ⟨v, fs', rfl, hv, hrest⟩ := hs
      have hmem : LuaVal.string m.1 ∈ fs'.map Prod.fst ↔ m.1 ∈ ms.map Prod.fst := by
        rw [showsMembers_keys hrest]
        simp only [List.mem_map, LuaVal.string.injEq]
      rw [lastOf, lastOf]
      by_cases hlater : m.1 ∈ ms.map Prod.fst
      · rw [if_pos hlater, if_pos (hmem.mpr hlater)]
        exact ih hrest
      · rw [if_neg hlater, if_neg (mt hmem.mp hlater)]
        exact ⟨v, lastOf fs', rfl, hv, ih hrest⟩

mutual

/-- What is built for a document is what it denotes. -/
theorem Built.shows {t u : Nat} : {doc : Doc} → {v : LuaVal} → doc.Short →
    Built (scalarPush env) true h t u doc.tree v → Shows env h doc.dom v
  | .leaf _, _, _, hv => hv
  | .array es, v, hshort, hv => by
      obtain ⟨heq, hmeta, fs, hfs, hchildren⟩ := hv
      obtain ⟨vs, rfl, hlen, hvs⟩ := BuiltForest.showsElements hshort.2 hchildren
      have hmax : arrayKeyMax = 2147483647 := rfl
      have hnodup : ((sequence vs).map Prod.fst).Nodup := by
        have hshort := hshort.1
        exact sequence_nodup (by omega)
      exact ⟨t, vs, heq, hmeta, hfs.holds hnodup, hvs⟩
  | .object ms, v, hshort, hv => by
      obtain ⟨heq, hmeta, fs, hfs, hchildren⟩ := hv
      have hms := BuiltForest.showsMembers hshort hchildren
      exact ⟨t, lastOf fs, heq, hmeta, ⟨hfs.bound, fun key => by rw [hfs.fields, lookup_lastOf]⟩, showsMembers_lastOf hms⟩

theorem BuiltForest.showsElements {t u i : Nat} : {es : List Doc} → {fs : List (LuaVal × LuaVal)} → shortElements es →
    BuiltForest (scalarPush env) true h t u (treeElements i es) fs →
    ∃ vs, fs = (vs.zipIdx i).map (fun p => (LuaVal.index (p.2 + 1), p.1)) ∧ vs.length = es.length ∧
      Json.showsElements env h (domElements es) vs
  | [], fs, _, hfs => ⟨[], hfs, rfl, rfl⟩
  | e :: es, fs, hshort, hfs => by
      obtain ⟨v, fs', rfl, hv, hrest⟩ := hfs
      obtain ⟨vs, rfl, hlen, hvs⟩ := BuiltForest.showsElements hshort.2 hrest
      exact ⟨v :: vs, rfl, by rw [List.length_cons, List.length_cons, hlen], v, vs, rfl, Built.shows hshort.1 hv, hvs⟩

theorem BuiltForest.showsMembers {t u : Nat} : {ms : List (Bytes × Doc)} → {fs : List (LuaVal × LuaVal)} → shortMembers ms →
    BuiltForest (scalarPush env) true h t u (treeMembers ms) fs → Json.showsMembers env h (domMembers ms) fs
  | [], fs, _, hfs => hfs
  | (k, v) :: ms, fs, hshort, hfs => by
      obtain ⟨w, fs', rfl, hw, hrest⟩ := hfs
      exact ⟨w, fs', rfl, Built.shows hshort.1 hw, BuiltForest.showsMembers hshort.2 hrest⟩

end

/-! The whole loop. -/

/-- Between two calls of `next` no level is open any more; what was in the heap
is as it was. -/
structure Decoded (env : Env) (L : LuaState) (doc : Doc) (d : Decoder) : Prop where
  path : d.path = []
  result : ∃ v, d.L.stack = v :: .table L.heap.tables.length :: L.stack ∧ Shows env d.L.heap doc.dom v ∧
    (d.L.heap.Holds L.heap.tables.length [] ∨ d.L.heap.Holds L.heap.tables.length [(.index 1, v)])
  same : ∀ r < L.heap.tables.length, d.L.heap.tables[r]? = L.heap.tables[r]?

variable {L : LuaState}

theorem decode_eq {ts : List Token} {r : Except Failure Decoder} (hne : ts ≠ [])
    (h : decodeTokens env ts ⟨L.newtable.push .nil, []⟩ = some r) : decode env L ts none = some r := by
  cases ts with
  | nil => exact absurd rfl hne
  | cons t ts => simp only [decode, h, Option.bind_eq_bind, Option.bind_some]

theorem beginNode_root (array : Bool) : beginNode array ⟨L.newtable.push .nil, []⟩ = some (.ok
    ⟨⟨.table (L.heap.tables.length + 1) :: .table L.heap.tables.length :: L.stack, opened L.heap array⟩,
      [startKey array]⟩) := by
  have hlen : (L.heap.create false).tables.length = L.heap.tables.length + 1 := by simp [Heap.create]
  have htag := tagged_create (L.heap.create false)
  rw [hlen] at htag
  cases array with
  | true =>
      simp [beginNode, attach, arrayKeyMax, LuaState.newtable, LuaState.push, LuaState.remove, LuaState.pushvalue,
        LuaState.rawseti, LuaState.at?, setArray, hlen, htag, opened, startKey]
  | false =>
      simp [beginNode, attach, arrayKeyMax, LuaState.newtable, LuaState.push, LuaState.remove, LuaState.pushvalue,
        LuaState.rawseti, LuaState.at?, hlen, opened, startKey]

theorem follows_root (array : Bool) : Follows L.heap.tables.length L.stack
    ⟨⟨.table (L.heap.tables.length + 1) :: .table L.heap.tables.length :: L.stack, opened L.heap array⟩, [startKey array]⟩
    ⟨opened L.heap array, [L.heap.tables.length + 1]⟩ :=
  ⟨⟨_, [], rfl, rfl⟩, rfl, (opened_ready L.heap array).1, rfl, by simp [arrayKeyMax]⟩

variable (env) in
/-- What the run over the children of the root builds. -/
theorem built_root {doc : Doc} {array : Bool} {f : Forest LuaVal Scalar Bool} {b : Build} (htree : doc.tree = .node array f)
    (hdepth : doc.tree.depth ≤ arrayKeyMax)
    (hbuild : Build.run (scalarPush env) true L.heap.tables.length f.events
      ⟨opened L.heap array, [L.heap.tables.length + 1]⟩ = some b) :
    Built (scalarPush env) true b.heap (L.heap.tables.length + 1) (opened L.heap array).userdata.length doc.tree
        (.table (L.heap.tables.length + 1)) ∧
      b.levels = [L.heap.tables.length + 1] ∧ Ready L.heap.tables.length b ∧
      ∀ r < L.heap.tables.length, b.heap.tables[r]? = L.heap.tables[r]? := by
  have hmax : arrayKeyMax = 2147483647 := rfl
  rw [htree, Tree.depth] at hdepth
  obtain ⟨hready, hroot, hlen⟩ := opened_ready L.heap array
  obtain ⟨b', fields, hrun, hfields, hadded⟩ :=
    @add_forest Scalar (scalarPush env) true L.heap.tables.length f ⟨opened L.heap array, [L.heap.tables.length + 1]⟩ _ [] [] rfl hready
      (hroot.latest List.nodup_nil) (by rw [List.length_singleton]; omega)
  obtain rfl : b = b' := Option.some.inj (hbuild.symm.trans hrun)
  have hgrown := hadded.grown
  rw [hlen] at hfields
  refine ⟨?_, hadded.levels, hadded.ready, fun r hr => ?_⟩
  · rw [htree]
    refine ⟨rfl, ?_, fields, by simpa using hadded.latest, hfields⟩
    rw [hgrown.metatable _ (by rw [hlen]; omega), opened_metatable, Bool.true_and]
  · rw [hgrown.same r (by rw [hlen]; omega) (by simp; omega)]
    exact opened_same L.heap array hr

/-- A container at the root. -/
theorem decoded_root {doc : Doc} {array : Bool} {f : Forest LuaVal Scalar Bool} {d d₂ : Decoder} {b : Build} {key : PathKey}
    (htree : doc.tree = .node array f) (hshort : doc.Short) (hdepth : doc.tree.depth ≤ arrayKeyMax)
    (hbuild : Build.run (scalarPush env) true L.heap.tables.length f.events
      ⟨opened L.heap array, [L.heap.tables.length + 1]⟩ = some b)
    (hf : Follows L.heap.tables.length L.stack d₂ b) (hpath : d₂.path = [key]) (hend : endNode d₂ = some (.ok d)) :
    Decoded env L doc d := by
  obtain ⟨hbuilt, hsame, hready, hold⟩ := built_root env htree hdepth hbuild
  obtain ⟨cur, outer, hlevels, hstack⟩ := hf.stack
  obtain ⟨rfl, rfl⟩ : cur = L.heap.tables.length + 1 ∧ outer = [] := by simpa [hlevels] using hsame
  have hd : d = ⟨d₂.L, []⟩ := by
    rw [endNode, hpath] at hend
    exact (Except.ok.inj (Option.some.inj hend)).symm
  subst hd
  refine ⟨rfl, ⟨_, hstack, ?_, .inr ?_⟩, fun r hr => ?_⟩
  · change Shows env d₂.L.heap _ _
    rw [hf.heap]
    exact Built.shows hshort hbuilt
  · have hlisted := hready.listed
    rw [hsame] at hlisted
    rw [hf.heap]
    exact hlisted
  · rw [hf.heap]
    exact hold r hr

variable (env) in
/-- Every document whose levels and elements can be counted is read as the value
that it denotes. -/
theorem decode_doc (L : LuaState) (doc : Doc) (hdepth : doc.tree.depth ≤ arrayKeyMax) (hshort : doc.Short) :
    ∃ d, decode env L doc.tokens none = some (.ok d) ∧ Decoded env L doc d := by
  have hmax : arrayKeyMax = 2147483647 := rfl
  cases doc with
  | leaf a =>
      refine ⟨⟨⟨env.value a :: .table L.heap.tables.length :: L.stack, L.heap.create false⟩, []⟩,
        decode_eq nofun ?_, rfl, ⟨_, rfl, rfl, .inl (Heap.holds_create _ _)⟩, fun r hr => Heap.create_same _ _ hr⟩
      rw [Doc.tokens, decodeTokens, a.token_step]
      rfl
  | array es =>
      have hcount := hdepth
      rw [Doc.tree, Tree.depth] at hcount
      obtain ⟨d₂, b, hrun, hbuild, hf, hpath⟩ := follows_elements env es 0 (follows_root true) rfl (by simpa using hshort.1)
        (by rw [List.length_singleton]; omega) hshort.2
      have hend : endNode d₂ = some (.ok ⟨d₂.L, []⟩) := by rw [endNode, hpath]
      refine ⟨⟨d₂.L, []⟩, decode_eq nofun ?_, decoded_root rfl hshort hdepth hbuild hf hpath hend⟩
      have hbegin : Token.beginArray.step env ⟨L.newtable.push .nil, []⟩ = some (.ok _) := beginNode_root true
      have hfinish : Token.endArray.step env d₂ = some (.ok _) := hend
      rw [Doc.tokens, decodeTokens_cons hbegin, decodeTokens_append hrun, decodeTokens_cons hfinish]
      rfl
  | object ms =>
      have hcount := hdepth
      rw [Doc.tree, Tree.depth] at hcount
      obtain ⟨d₂, b, key, hrun, hbuild, hf, hpath⟩ := follows_members env ms (follows_root false) rfl
        (by rw [List.length_singleton]; omega) hshort
      have hend : endNode d₂ = some (.ok ⟨d₂.L, []⟩) := by rw [endNode, hpath]
      refine ⟨⟨d₂.L, []⟩, decode_eq nofun ?_, decoded_root rfl hshort hdepth hbuild hf hpath hend⟩
      have hbegin : Token.beginObject.step env ⟨L.newtable.push .nil, []⟩ = some (.ok _) := beginNode_root false
      have hfinish : Token.endObject.step env d₂ = some (.ok _) := hend
      rw [Doc.tokens, decodeTokens_cons hbegin, decodeTokens_append hrun, decodeTokens_cons hfinish]
      rfl

/-! What is refused. -/

theorem decode_refuses {ts ts' : List Token} {t : Token} {d : Decoder} {e : Failure}
    (hrun : decodeTokens env ts ⟨L.newtable.push .nil, []⟩ = some (.ok d)) (hstep : t.step env d = some (.error e)) :
    decode env L (ts ++ t :: ts') none = some (.error e) := by
  refine decode_eq (by simp) ?_
  rw [decodeTokens_append hrun, decodeTokens, hstep]

variable (env) in
/-- So many arrays in one another are open. -/
theorem open_arrays (L : LuaState) {n : Nat} (hn : n < arrayKeyMax) : ∃ d b path,
    decodeTokens env (List.replicate (n + 1) .beginArray) ⟨L.newtable.push .nil, []⟩ = some (.ok d) ∧
      Follows L.heap.tables.length L.stack d b ∧ d.path = .index 0 :: path ∧ path.length = n := by
  induction n with
  | zero =>
      have hbegin : Token.beginArray.step env ⟨L.newtable.push .nil, []⟩ = some (.ok _) := beginNode_root true
      refine ⟨_, _, [], ?_, follows_root true, rfl, rfl⟩
      rw [List.replicate_one, decodeTokens_cons hbegin]
      rfl
  | succ n ih =>
      obtain ⟨d, b, path, hrun, hf, hpath, hlen⟩ := ih (by omega)
      have hlevel : d.path.length < arrayKeyMax := by
        rw [hpath, List.length_cons, hlen]
        exact hn
      obtain ⟨d', b', hbegin, -, hf', hpath'⟩ := hf.open env hpath (show 0 < arrayKeyMax by decide) hlevel true
      have hstep : Token.beginArray.step env d = some (.ok d') := hbegin
      refine ⟨d', b', PathKey.advance (.index 0) :: path, ?_, hf', hpath', by rw [List.length_cons, hlen]⟩
      rw [List.replicate_succ', decodeTokens_append hrun, decodeTokens_cons hstep]
      rfl

def nested : Nat → Doc
  | 0 => .array []
  | n + 1 => .array [nested n]

theorem nested_tokens (n : Nat) : ∃ ts, (nested n).tokens = List.replicate (n + 1) .beginArray ++ ts := by
  induction n with
  | zero => exact ⟨[.endArray], rfl⟩
  | succ n ih =>
      obtain ⟨ts, hts⟩ := ih
      refine ⟨ts ++ [.endArray], ?_⟩
      rw [nested, Doc.tokens, arrayTokens, arrayTokens, List.append_nil, hts, List.replicate_succ (n := n + 1)]
      simp only [List.cons_append, List.append_assoc]

variable (env) in
theorem nested_refused (L : LuaState) {n : Nat} (hn : arrayKeyMax ≤ n) :
    decode env L (nested n).tokens none = some (.error .tooManyLevels) := by
  obtain ⟨ts, hts⟩ := nested_tokens n
  obtain ⟨m, hm⟩ : ∃ m, arrayKeyMax = m + 1 := ⟨2147483646, rfl⟩
  obtain ⟨d, b, path, hrun, hf, hpath, hlen⟩ := open_arrays env L (show m < arrayKeyMax by omega)
  have hstep : Token.beginArray.step env d = some (.error .tooManyLevels) := by
    change beginNode true d = _
    rw [beginNode, if_pos (by rw [hpath, List.length_cons, hlen, hm])]
  obtain ⟨k, rfl⟩ : ∃ k, n = m + 1 + k := ⟨n - (m + 1), by omega⟩
  have hsplit : List.replicate (m + 1 + k + 1) Token.beginArray ++ ts =
      List.replicate (m + 1) .beginArray ++ .beginArray :: (List.replicate k .beginArray ++ ts) := by
    rw [Nat.add_assoc (m + 1) k 1, List.replicate_add (m + 1) (k + 1), List.replicate_succ (n := k), List.append_assoc,
      List.cons_append]
  rw [hts, hsplit]
  exact decode_refuses hrun hstep

theorem nulls_tokens (n : Nat) : arrayTokens (List.replicate n (.leaf .null)) = List.replicate n .null := by
  induction n with
  | zero => rfl
  | succ n ih =>
      rw [List.replicate_succ, arrayTokens, ih, List.replicate_succ]
      rfl

theorem nulls_short (n : Nat) : shortElements (List.replicate n (.leaf .null)) ∧
    (treeElements 0 (List.replicate n (.leaf .null))).depth = 0 := by
  have hdepth : ∀ i, (treeElements i (List.replicate n (.leaf .null))).depth = 0 := by
    induction n with
    | zero => exact fun _ => rfl
    | succ n ih => exact fun i => by rw [List.replicate_succ, treeElements, Forest.depth, ih]; rfl
  refine ⟨?_, hdepth 0⟩
  clear hdepth
  induction n with
  | zero => trivial
  | succ n ih => exact ⟨trivial, ih⟩

variable (env) in
theorem nulls_refused (L : LuaState) {n : Nat} (hn : arrayKeyMax < n) :
    decode env L (Doc.array (List.replicate n (.leaf .null))).tokens none = some (.error (.dom .arrayTooLong [])) := by
  obtain ⟨hshort, hdepth⟩ := nulls_short arrayKeyMax
  obtain ⟨d, b, hrun, -, hf, hpath⟩ := follows_elements env (List.replicate arrayKeyMax (.leaf .null)) 0 (@follows_root L true) rfl
    (by simp) (by rw [hdepth]; simp [arrayKeyMax]) hshort
  have hbegin : Token.beginArray.step env ⟨L.newtable.push .nil, []⟩ = some (.ok _) := beginNode_root true
  have hprefix : decodeTokens env (.beginArray :: List.replicate arrayKeyMax .null) ⟨L.newtable.push .nil, []⟩ = some (.ok d) := by
    rw [decodeTokens_cons hbegin, ← nulls_tokens, hrun]
  rw [List.length_replicate, Nat.zero_add] at hpath
  have hstep : Token.null.step env d = some (.error (.dom .arrayTooLong [])) := by
    change onLeaf env d .null = _
    simp [onLeaf, hpath, pathInfo]
  obtain ⟨k, rfl⟩ : ∃ k, n = arrayKeyMax + (k + 1) := ⟨n - arrayKeyMax - 1, by omega⟩
  have hsplit : (Doc.array (List.replicate (arrayKeyMax + (k + 1)) (.leaf .null))).tokens =
      (.beginArray :: List.replicate arrayKeyMax .null) ++ .null :: (List.replicate k .null ++ [.endArray]) := by
    rw [Doc.tokens, nulls_tokens, List.replicate_add, List.replicate_succ]
    simp only [List.cons_append, List.append_assoc]
  rw [hsplit]
  exact decode_refuses hprefix hstep

end

/-- `json.null` is the first table. -/
def smallEnv : Env := ⟨fun i => doubleOfNat i.toNatClampNeg, 0⟩

def smallState : LuaState := ⟨[], Heap.empty.create false⟩

/-- `{"a": [null, 1], "a": {}}`. -/
theorem decode_doc_members : ∃ d,
    decode smallEnv smallState [.beginObject, .key [97], .beginArray, .null, .integer (.ok 1), .endArray, .key [97],
      .beginObject, .endObject, .endObject] none = some (.ok d) ∧ d.path = [] ∧
    ∃ v, d.L.stack = [v, .table 1] ∧ Shows smallEnv d.L.heap (.object [([97], .object [])]) v := by
  obtain ⟨d, hdecode, hdecoded⟩ := decode_doc smallEnv smallState
    (.object [([97], .array [.leaf .null, .leaf (.integer 1)]), ([97], .object [])]) (by decide)
    ⟨⟨by decide, trivial, trivial, trivial⟩, trivial, trivial⟩
  obtain ⟨v, hstack, hshows, -⟩ := hdecoded.result
  exact ⟨d, hdecode, hdecoded.path, v, hstack, hshows⟩

/-- 2^31 arrays in one another, an array of 2^31 nulls, and what is still in the
list of open tables after `[]`. -/
theorem uncounted_refused :
    decode smallEnv smallState (nested 2147483647).tokens none = some (.error .tooManyLevels) ∧
      decode smallEnv smallState (Doc.array (List.replicate 2147483648 (.leaf .null))).tokens none =
        some (.error (.dom .arrayTooLong [])) ∧
      ∃ d, decode smallEnv smallState (Doc.array []).tokens none = some (.ok d) ∧ d.L.stack = [.table 2, .table 1] ∧
        d.L.heap.rawget 1 (.index 1) = some (.table 2) :=
  ⟨nested_refused smallEnv smallState (Nat.le_refl _), nulls_refused smallEnv smallState (Nat.lt_succ_self _),
    _, rfl, rfl, rfl⟩

end Emilua.Json
