import Emilua.Serializer

/-!
The loop of `chan_send` against the recursion: level by level it comes to what
the recursion says, as long as no `cdata` is met.
-/
namespace Emilua
open Wire Iterate

/-! Numbers, keys and fields. -/

theorem natOfDouble_doubleOfNat {n : Nat} (hn : n < 2 ^ 53) : natOfDouble (doubleOfNat n) = n := by
  by_cases hzero : n = 0
  · rw [hzero]
    rfl
  obtain ⟨hexp, hfrac⟩ := doubleOfNat_parts hzero hn
  have hlog : n.log2 < 53 := (Nat.log2_lt hzero).mpr hn
  have hlow : 2 ^ n.log2 ≤ n := Nat.log2_self_le hzero
  have hbits : (doubleOfNat n).toNat ≠ 0 := by
    intro h
    rw [h] at hexp
    omega
  rw [natOfDouble, if_neg hbits, hexp, hfrac, Nat.add_sub_cancel_left,
    Nat.mul_div_cancel _ (Nat.pos_of_ne_zero (by positivity))]
  omega

theorem toInteger_index {n : Nat} (hn : n < 2 ^ 53) : (LuaVal.index n).toInteger = n := natOfDouble_doubleOfNat hn

theorem index_ne {m n : Nat} (hm : m < 2 ^ 53) (hn : n < 2 ^ 53) (hne : m ≠ n) : LuaVal.index m ≠ LuaVal.index n :=
  fun h => hne (LuaVal.index_injective hm hn h)

section
variable {h : Heap} {r r' : Nat} {k k' v : LuaVal}

theorem fetch_assign (hr : r < h.tables.length) :
    (h.assign r k v).fetch r' k' = if r' = r ∧ k' = k then v else h.fetch r' k' := by
  by_cases hrr : r' = r
  · subst hrr
    simp only [Heap.fetch, Heap.rawget, Heap.assign, List.getElem?_modify_eq, List.getElem?_eq_getElem hr,
      Option.map_eq_map, Option.map_some, Option.bind_some, true_and]
    by_cases hv : v = .nil
    · subst hv
      by_cases hk : k' = k
      · subst hk
        simp
      · simp [hk, AList.lookup_erase_ne hk]
    · by_cases hk : k' = k
      · subst hk
        simp [hv]
      · simp [hv, hk, AList.lookup_insert_ne hk]
  · rw [if_neg fun hand => hrr hand.1, Heap.fetch, Heap.rawget, Heap.assign_ne h k v (Ne.symm hrr)]
    rfl

theorem fetch_assign_ne (hne : r' ≠ r) : (h.assign r k v).fetch r' k' = h.fetch r' k' := by
  rw [Heap.fetch, Heap.rawget, Heap.assign_ne h k v (Ne.symm hne)]
  rfl

theorem fetch_create (h : Heap) (b : Bool) : (h.create b).fetch r k = h.fetch r k := by
  simp only [Heap.fetch, Heap.rawget, Heap.create]
  rcases Nat.lt_trichotomy r h.tables.length with hlt | heq | hgt
  · rw [List.getElem?_append_left hlt]
  · rw [heq, List.getElem?_concat_length, List.getElem?_eq_none (le_refl _)]
    rfl
  · rw [List.getElem?_eq_none (by simp; omega), List.getElem?_eq_none (by omega)]

theorem fetch_table (h : Heap) (r : Nat) (k : LuaVal) : h.fetch r k = ((Json.table h r).fields.lookup k).getD .nil := by
  rw [Heap.fetch, Heap.rawget, Json.table]
  cases h.tables[r]? with
  | none => rfl
  | some t => rfl

end

section
variable {t : LuaTable}

/-- The values of a table from index `i + 1` on, up to the first `nil`. -/
def ElementsFrom (t : LuaTable) : Nat → List LuaVal → Prop
  | i, [] => (t.fields.lookup (.index (i + 1))).getD .nil = .nil
  | i, v :: vs => (t.fields.lookup (.index (i + 1))).getD .nil = v ∧ v ≠ .nil ∧ ElementsFrom t (i + 1) vs

/-- A table has no more elements than fields. -/
theorem elements_le_fields {n : Nat} (hn : n < 2 ^ 53)
    (hget : ∀ i < n, (t.fields.lookup (.index (i + 1))).getD .nil ≠ .nil) : n ≤ t.fields.entries.length := by
  have hnodup : ((List.range n).map fun i => LuaVal.index (i + 1)).Nodup := by
    refine (List.nodup_map_iff_inj_on List.nodup_range).mpr fun i hi j hj heq => ?_
    have hi := List.mem_range.mp hi
    have hj := List.mem_range.mp hj
    have := LuaVal.index_injective (by omega) (by omega) heq
    omega
  have hsub : ((List.range n).map fun i => LuaVal.index (i + 1)) ⊆ t.fields.keys := by
    intro k hk
    obtain ⟨i, hi, rfl⟩ := List.mem_map.mp hk
    have hsome := hget i (List.mem_range.mp hi)
    by_contra hnot
    rw [AList.lookup_eq_none.mpr hnot] at hsome
    exact hsome rfl
  have hle := (List.subperm_of_subset hnodup hsub).length_le
  simpa [AList.keys, List.keys] using hle

theorem elementsFrom_ipairsFrom {n i : Nat} (hsmall : t.fields.entries.length + 1 < 2 ^ 53) (hn : n + i ≤ t.fields.entries.length)
    (hall : t.fields.entries.length ≤ n + i) (hget : ∀ j < i, (t.fields.lookup (.index (j + 1))).getD .nil ≠ .nil) :
    ElementsFrom t i (Json.ipairsFrom t n (i + 1)) := by
  induction n generalizing i with
  | zero =>
      rw [Json.ipairsFrom, ElementsFrom]
      by_contra hne
      have hle := @elements_le_fields t (i + 1) (by omega) fun j hj => by
        rcases Nat.lt_succ_iff_lt_or_eq.mp hj with hlt | rfl
        · exact hget j hlt
        · exact hne
      omega
  | succ n ih =>
      rw [Json.ipairsFrom]
      cases hv : (t.fields.lookup (.index (i + 1))).getD .nil with
      | nil => exact hv
      | _ =>
          refine ⟨hv, by simp, ih (by omega) (by omega) fun j hj => ?_⟩
          rcases Nat.lt_succ_iff_lt_or_eq.mp hj with hlt | rfl
          · exact hget j hlt
          · rw [hv]
            simp

theorem elementsFrom_ipairs (hsmall : t.fields.entries.length + 1 < 2 ^ 53) : ElementsFrom t 0 (Json.ipairs t) :=
  elementsFrom_ipairsFrom hsmall (Nat.le_refl _) (Nat.le_refl _) fun j hj => absurd hj (Nat.not_lt_zero j)

theorem ipairsFrom_length (t : LuaTable) (n i : Nat) : (Json.ipairsFrom t n i).length ≤ n := by
  induction n generalizing i with
  | zero => exact Nat.le_refl 0
  | succ n ih =>
      rw [Json.ipairsFrom]
      split
      · exact Nat.zero_le _
      · exact Nat.succ_le_succ (ih (i + 1))

theorem mem_ipairsFrom {n i : Nat} {v : LuaVal} (hv : v ∈ Json.ipairsFrom t n i) : ∃ f ∈ t.fields.entries, f.2 = v := by
  induction n generalizing i with
  | zero => cases hv
  | succ n ih =>
      rw [Json.ipairsFrom] at hv
      cases hget : (t.fields.lookup (.index i)) with
      | none =>
          rw [hget] at hv
          cases hv
      | some w =>
          have hmem := AList.mem_lookup_iff.mp hget
          rw [hget, Option.getD_some] at hv
          cases w with
          | nil => cases hv
          | _ =>
              rcases List.mem_cons.mp hv with rfl | hv
              · exact ⟨_, hmem, rfl⟩
              · exact ih hv

theorem pairs_nodup (t : LuaTable) : (t.pairs.map Prod.fst).Nodup := by
  have hkeys : ((t.fields.entries.map fun f => ((f.1, f.2) : LuaVal × LuaVal)).map Prod.fst).Nodup := by
    simpa [List.map_map, Function.comp_def, List.NodupKeys, List.keys] using t.fields.nodupKeys
  exact hkeys.sublist (List.filter_sublist.map _)

theorem mem_pairs {f : LuaVal × LuaVal} (hf : f ∈ t.pairs) :
    f.1 ≠ .nil ∧ f.2 ≠ .nil ∧ ∃ e ∈ t.fields.entries, e.2 = f.2 := by
  obtain ⟨hmem, hlive⟩ := List.mem_filter.mp hf
  obtain ⟨e, he, rfl⟩ := List.mem_map.mp hmem
  obtain ⟨hkey, hvalue⟩ := of_decide_eq_true hlive
  exact ⟨hkey, hvalue, e, he, rfl⟩

/-- After the key of a field come the fields behind it. -/
theorem after_key {pre fs : List (LuaVal × LuaVal)} {k v : LuaVal} (h : t.pairs = pre ++ (k, v) :: fs) :
    t.after k = some fs := by
  have hmem : (k, v) ∈ t.pairs := by simp [h]
  have hk := (mem_pairs hmem).1
  have hnodup := pairs_nodup t
  rw [h, List.map_append, List.map_cons] at hnodup
  have hpre : ∀ f ∈ pre, f.1 ≠ k := by
    rintro f hf rfl
    exact (List.nodup_append.mp hnodup).2.2 f.1 (List.mem_map_of_mem hf) f.1 List.mem_cons_self rfl
  have hdrop : (t.pairs.dropWhile fun f => f.1 ≠ k) = (k, v) :: fs := by
    rw [h, List.dropWhile_append_of_pos (by simpa using hpre), List.dropWhile_cons_of_neg (by simp)]
  cases k with
  | nil => exact absurd rfl hk
  | _ =>
      rw [LuaTable.after, hdrop]
      · rfl
      · simp

end

/-! The levels. -/

/-- A table that is being iterated: how far, and its container. -/
inductive Level where
  | array (t idx : Nat) (a : List Value)
  | object (t : Nat) (key : LuaVal) (m : List (Bytes × Value)) (it : Bytes)

namespace Level

def table : Level → Nat
  | .array t _ _ => t
  | .object t _ _ _ => t

def iter : Level → LuaVal
  | .array _ idx _ => .index idx
  | .object _ key _ _ => key

def node : Level → DomNode
  | .array _ _ a => .array a
  | .object _ _ m it => .object m it

/-- What the level keeps on the Lua stack. -/
def slots : Level → List LuaVal
  | .array t _ _ => [.table t]
  | .object t key _ _ => [key, .table t]

def put (v : Value) : Level → Level
  | .array t idx a => .array t idx (a.dropLast ++ [v])
  | .object t key m it => .object t key (assignKey m it v) it

/-- How an array counts, as `current_array_idx` does. -/
def Counts (n : Nat) : Level → Prop
  | .array _ idx _ => idx = n
  | .object _ _ _ _ => True

/-- What `current_array_idx` is when the level is come back to. -/
def count (n : Nat) : Level → Nat
  | .array _ idx _ => idx
  | .object _ _ _ _ => n

/-- The index of an array stays one that can be stored. -/
def Small : Level → Prop
  | .array _ idx _ => idx ≤ Json.arrayKeyMax
  | .object _ _ _ _ => True

variable (l : Level) (v : Value)

@[simp] theorem table_put : (l.put v).table = l.table := by cases l <;> rfl

@[simp] theorem iter_put : (l.put v).iter = l.iter := by cases l <;> rfl

@[simp] theorem slots_put : (l.put v).slots = l.slots := by cases l <;> rfl

@[simp] theorem node_put : (l.put v).node = l.node.put v := by cases l <;> rfl

theorem small_put : (l.put v).Small ↔ l.Small := by cases l <;> exact Iff.rfl

theorem counts_put (n : Nat) : (l.put v).Counts n ↔ l.Counts n := by cases l <;> exact Iff.rfl

end Level

/-- The work items of the levels outside, each made before those inside of it. -/
def Saved (h : Heap) (n : Nat) : Nat → List Level → Prop
  | _, [] => True
  | bound, l :: ls =>
      ∃ i, n + 2 ≤ i ∧ i < bound ∧ h.fetch (n + 1) (.index (ls.length + 1)) = .table i ∧
        h.fetch i (.index nodeIdx) = .table l.table ∧ h.fetch i (.index iterIdx) = l.iter ∧ Saved h n i ls

theorem Saved.frame {h h' : Heap} {n : Nat} {bound : Nat} {ls : List Level} (hs : Saved h n bound ls)
    (hits : ∀ j ≤ ls.length, h'.fetch (n + 1) (.index j) = h.fetch (n + 1) (.index j))
    (hitem : ∀ i k, n + 2 ≤ i → i < bound → h'.fetch i k = h.fetch i k) : Saved h' n bound ls := by
  induction ls generalizing bound with
  | nil => trivial
  | cons l ls ih =>
      obtain ⟨i, hlow, hlt, hwork, hnode, hiter, hrest⟩ := hs
      refine ⟨i, hlow, hlt, ?_, ?_, ?_, ih hrest ?_ ?_⟩
      · rw [hits _ (by simp), hwork]
      · rw [hitem i _ hlow hlt, hnode]
      · rw [hitem i _ hlow hlt, hiter]
      · exact fun j hj => hits j (by simp; omega)
      · exact fun j k hj hlt' => hitem j k hj (hlt'.trans hlt)

/-- The heap while table `t` is iterated: that of the graph, and behind it the
table of visited ones, that of the work items, and the work items. -/
structure Kept (g h : Heap) (t : Nat) (ls : List Level) : Prop where
  userdata : h.userdata = g.userdata
  tables : ∀ r < g.tables.length, h.tables[r]? = g.tables[r]?
  nodup : (t :: ls.map Level.table).Nodup
  visited : ∀ r, h.fetch g.tables.length (.table r) = if r ∈ t :: ls.map Level.table then .boolean true else .nil
  small : ∀ l ∈ ls, l.Small
  few : ls.length < Json.arrayKeyMax
  work : ∃ i, g.tables.length + 2 ≤ i ∧ i < h.tables.length ∧
    h.fetch (g.tables.length + 1) (.index (ls.length + 1)) = .table i ∧ h.fetch i (.index nodeIdx) = .table t ∧
      Saved h g.tables.length i ls

/-- The values below what a level keeps on the Lua stack. -/
def below (g : Heap) (base : List LuaVal) : List LuaVal := .table (g.tables.length + 1) :: .table g.tables.length :: base

/-- The loop is about to take the next turn at level `l`. -/
structure At (g : Heap) (base : List LuaVal) (s : Serializer) (l : Level) (ls : List Level) : Prop where
  stack : s.L.stack = l.slots ++ below g base
  dom : s.domStack = l.node :: ls.map Level.node
  counts : l.Counts s.currentArrayIdx
  small : l.Small
  kept : Kept g s.L.heap l.table ls

/-- The loop is about to close the level of table `t` with the container `v`. -/
structure Closing (g : Heap) (base : List LuaVal) (s : Serializer) (t : Nat) (ls : List Level) (v : Value) : Prop where
  stack : s.L.stack = .table t :: below g base
  dom : ∃ node : DomNode, node.value = v ∧ s.domStack = node :: ls.map Level.node
  kept : Kept g s.L.heap t ls

section
variable {g : Heap} {base : List LuaVal} {s : Serializer} {l : Level} {ls : List Level} {t : Nat} {v : Value}

theorem Kept.bounds {h : Heap} (hk : Kept g h t ls) : g.tables.length + 2 < h.tables.length := by
  obtain ⟨i, hlow, hlt, -⟩ := hk.work
  omega

/-- What `update_lua_ctx_on_level_popped` does with the two tables. -/
def popped (g h : Heap) (t n : Nat) : Heap :=
  (h.assign g.tables.length (.table t) .nil).assign (g.tables.length + 1) (.index (n + 1)) .nil

theorem popped_item (g h : Heap) (t n : Nat) {r : Nat} (k : LuaVal) (hr : g.tables.length + 2 ≤ r) :
    (popped g h t n).fetch r k = h.fetch r k := by
  rw [popped, fetch_assign_ne (by omega), fetch_assign_ne (by omega)]

theorem popped_work {h : Heap} (t : Nat) {n j : Nat} (hh : g.tables.length + 2 < h.tables.length) (hn : n < Json.arrayKeyMax)
    (hj : j ≤ n) : (popped g h t n).fetch (g.tables.length + 1) (.index j) = h.fetch (g.tables.length + 1) (.index j) := by
  rw [Json.arrayKeyMax] at hn
  rw [popped, fetch_assign (by simp; omega), if_neg, fetch_assign_ne (by omega)]
  exact fun hand => index_ne (by omega) (by omega) (by omega) hand.2

theorem kept_popped {h : Heap} (hk : Kept g h t (l :: ls)) : Kept g (popped g h t (l :: ls).length) l.table ls := by
  have hbounds := hk.bounds
  have hwork : ∀ j ≤ ls.length + 1, _ := fun j hj => popped_work t hbounds hk.few (j := j) hj
  obtain ⟨i, hlow, hlt, hits, hnode, i', hlow', hlt', hits', hnode', hiter', hsaved⟩ := hk.work
  have hnew : t ∉ l.table :: ls.map Level.table := (List.nodup_cons.mp hk.nodup).1
  refine ⟨?_, ?_, ?_, ?_, ?_, ?_, i', hlow', ?_, ?_, ?_, ?_⟩
  · rw [popped, Heap.assign_userdata, Heap.assign_userdata, hk.userdata]
  · intro r hr
    rw [popped, Heap.assign_ne _ _ _ (by omega), Heap.assign_ne _ _ _ (by omega), hk.tables r hr]
  · exact (List.nodup_cons.mp hk.nodup).2
  · intro r
    rw [popped, fetch_assign_ne (by omega), fetch_assign (by omega), hk.visited r]
    by_cases hr : r = t
    · subst hr
      rw [if_pos ⟨rfl, rfl⟩, if_neg hnew]
    · rw [if_neg fun hand => hr (LuaVal.table.inj hand.2)]
      simp [hr]
  · exact fun l' hl' => hk.small l' (List.mem_cons_of_mem _ hl')
  · exact (Nat.lt_succ_self _).trans hk.few
  · simp only [popped, Heap.assign_tables_length]
    omega
  · rw [hwork _ le_rfl, hits']
  · rw [popped_item _ _ _ _ _ hlow', hnode']
  · exact hsaved.frame (fun j hj => hwork j (by omega)) fun j k hj _ => popped_item _ _ _ _ _ hj

theorem updateLuaCtx_eq {h : Heap} (hk : Kept g h t (l :: ls)) {node : DomNode} {nodes : List DomNode}
    (hkind : node.isArray = l.node.isArray) (hlen : nodes.length = ls.length) (idx dups : Nat) :
    Serializer.updateLuaCtxOnLevelPopped ⟨⟨.table t :: below g base, h⟩, node :: nodes, idx, dups⟩ =
      some ⟨⟨l.slots ++ below g base, popped g h t (l :: ls).length⟩, node :: nodes, l.count idx, dups⟩ := by
  obtain ⟨i, -, -, -, -, i', hlow, -, hits, hitem, hiter, -⟩ := hk.work
  replace hits := (popped_work t hk.bounds hk.few (Nat.le_refl _)).trans hits
  rw [← popped_item g h t (l :: ls).length _ hlow] at hitem hiter
  have hsmall := hk.small l List.mem_cons_self
  simp only [List.length_cons, popped] at hits hitem hiter ⊢
  cases l with
  | array u idx' a =>
      cases node with
      | object m it => cases hkind
      | array a' =>
          have hidx : (LuaVal.index idx').toInteger = idx' := toInteger_index (hsmall.trans_lt (by decide))
          simp [Serializer.updateLuaCtxOnLevelPopped, below, LuaState.rawset, LuaState.rawseti, LuaState.rawgeti,
            LuaState.push, LuaState.at?, LuaState.remove, LuaState.pop, Level.slots, hlen, hits, hitem, hiter,
            Level.table, Level.iter, Level.count, hidx]
  | object u key m it =>
      cases node with
      | array a' => cases hkind
      | object m' it' =>
          simp [Serializer.updateLuaCtxOnLevelPopped, below, LuaState.rawset, LuaState.rawseti, LuaState.rawgeti,
            LuaState.push, LuaState.at?, LuaState.remove, Level.slots, hlen, hits, hitem, hiter, Level.table, Level.iter,
            Level.count]

/-- A closed level makes room for the one outside. -/
theorem closeNode_outer (hc : Closing g base s t (l :: ls) v) :
    ∃ s', s.closeNode = some (.inl s') ∧ At g base s' (l.put v) ls ∧ s'.dups = s.dups := by
  obtain ⟨node, rfl, hdom⟩ := hc.dom
  obtain ⟨⟨stack, h⟩, dom, idx, dups⟩ := s
  obtain rfl : stack = _ := hc.stack
  obtain rfl : dom = _ := hdom
  have hk : Kept g h t (l :: ls) := hc.kept
  have hsmall := hk.small l List.mem_cons_self
  have hkind : (l.node.put node.value).isArray = l.node.isArray := by cases l <;> rfl
  refine ⟨⟨⟨l.slots ++ below g base, popped g h t (l :: ls).length⟩, l.node.put node.value :: ls.map Level.node,
    l.count idx, dups⟩, ?_, ⟨?_, ?_, ?_, ?_, ?_⟩, rfl⟩
  · rw [Serializer.closeNode, List.map_cons]
    simp only
    rw [updateLuaCtx_eq hk hkind (by simp)]
    rfl
  · rw [Level.slots_put]
  · rw [Level.node_put]
  · rw [Level.counts_put]
    cases l <;> first | rfl | trivial
  · rwa [Level.small_put]
  · rw [Level.table_put]
    exact kept_popped hk

/-- The last level closed, the loop ends and leaves the stack as it was. -/
theorem closeNode_last (hc : Closing g base s t [] v) :
    ∃ L, s.closeNode = some (.inr (.ok (L, v, s.dups))) ∧ L.stack = base ∧ L.heap = s.L.heap := by
  obtain ⟨node, rfl, hdom⟩ := hc.dom
  refine ⟨⟨base, s.L.heap⟩, ?_, rfl, rfl⟩
  rw [Serializer.closeNode, hdom]
  simp [LuaState.pop, hc.stack, below]

/-- What entering table `c` from level `n` with work item `i` does to the heap. -/
def entered (g h : Heap) (c n i : Nat) (iter : LuaVal) : Heap :=
  ((((h.assign g.tables.length (.table c) (.boolean true)).assign i (.index iterIdx) iter).create false).assign
    h.tables.length (.index nodeIdx) (.table c)).assign (g.tables.length + 1) (.index (n + 1)) (.table h.tables.length)

section
variable {h : Heap} {c n i r : Nat} {iter k : LuaVal}

theorem entered_length : (entered g h c n i iter).tables.length = h.tables.length + 1 := by
  simp [entered, Heap.create]

theorem entered_item (hr : g.tables.length + 2 ≤ r) (hnew : r < h.tables.length) (hne : r = i → k ≠ .index iterIdx) :
    (entered g h c n i iter).fetch r k = h.fetch r k := by
  rw [entered, fetch_assign_ne (by omega), fetch_assign_ne (by omega), fetch_create]
  by_cases hri : r = i
  · subst hri
    rw [fetch_assign (by simpa using hnew), if_neg fun hand => hne rfl hand.2, fetch_assign_ne (by omega)]
  · rw [fetch_assign_ne hri, fetch_assign_ne (by omega)]

theorem entered_iter (hi : g.tables.length + 2 ≤ i) (hlt : i < h.tables.length) :
    (entered g h c n i iter).fetch i (.index iterIdx) = iter := by
  rw [entered, fetch_assign_ne (by omega), fetch_assign_ne (by omega), fetch_create, fetch_assign (by simpa using hlt),
    if_pos ⟨rfl, rfl⟩]

theorem entered_work {j : Nat} (hh : g.tables.length + 2 < h.tables.length) (hi : g.tables.length + 2 ≤ i)
    (hn : n < Json.arrayKeyMax) (hj : j ≤ n) :
    (entered g h c n i iter).fetch (g.tables.length + 1) (.index j) = h.fetch (g.tables.length + 1) (.index j) := by
  rw [Json.arrayKeyMax] at hn
  rw [entered, fetch_assign (by simp [Heap.create]; omega), if_neg, fetch_assign_ne (by omega), fetch_create,
    fetch_assign_ne (by omega), fetch_assign_ne (by omega)]
  exact fun hand => index_ne (by omega) (by omega) (by omega) hand.2

end

/-- The level outside is kept in its work item, and the new one is above it. -/
theorem kept_entered {h : Heap} {c i : Nat} (hk : Kept g h l.table ls) (hsmall : l.Small)
    (hnew : c ∉ l.table :: ls.map Level.table) (hroom : ls.length + 1 < Json.arrayKeyMax)
    (hi : g.tables.length + 2 ≤ i) (hlt : i < h.tables.length)
    (hits : h.fetch (g.tables.length + 1) (.index (ls.length + 1)) = .table i)
    (hnode : h.fetch i (.index nodeIdx) = .table l.table) (hsaved : Saved h g.tables.length i ls) :
    Kept g (entered g h c (ls.length + 1) i l.iter) c (l :: ls) := by
  have hbounds := hk.bounds
  have hidx : LuaVal.index nodeIdx ≠ LuaVal.index iterIdx := index_ne (by decide) (by decide) (by decide)
  refine ⟨hk.userdata, ?_, ?_, ?_, ?_, hroom, h.tables.length, by omega, ?_, ?_, ?_, i, hi, hlt, ?_, ?_, ?_, ?_⟩
  · intro r hr
    rw [entered, Heap.assign_ne _ _ _ (by omega), Heap.assign_ne _ _ _ (by omega), Heap.create_same _ _ (by simp; omega),
      Heap.assign_ne _ _ _ (by omega), Heap.assign_ne _ _ _ (by omega), hk.tables r hr]
  · exact List.nodup_cons.mpr ⟨hnew, hk.nodup⟩
  · intro r
    rw [entered, fetch_assign_ne (by omega), fetch_assign_ne (by omega), fetch_create, fetch_assign_ne (by omega),
      fetch_assign (by omega), hk.visited r]
    by_cases hr : r = c
    · subst hr
      simp
    · rw [if_neg fun hand => hr (LuaVal.table.inj hand.2)]
      simp [hr]
  · intro l' hl'
    rcases List.mem_cons.mp hl' with rfl | hl'
    · exact hsmall
    · exact hk.small l' hl'
  · rw [entered_length]
    exact Nat.lt_succ_self _
  · rw [entered, fetch_assign (by simp [Heap.create]; omega), if_pos ⟨rfl, rfl⟩]
  · rw [entered, fetch_assign_ne (by omega), fetch_assign (by simp [Heap.create]), if_pos ⟨rfl, rfl⟩]
  · rw [entered_work hbounds hi hroom le_rfl, hits]
  · rw [entered_item hi hlt fun _ => hidx, hnode]
  · exact entered_iter hi hlt
  · exact hsaved.frame (fun j hj => entered_work hbounds hi hroom (by omega))
      fun j k hj hji => entered_item hj (hji.trans hlt) fun heq => absurd heq (by omega)

/-- The level of a table that is about to be iterated. -/
def Level.start (env : SenderEnv) (c : Nat) : Level := if 0 < env.objlen c then .array c 0 [] else .object c .nil [] []

/-- A value of level `l` has been read. -/
structure Held (g : Heap) (base : List LuaVal) (s : Serializer) (v : LuaVal) (l : Level) (ls : List Level) : Prop where
  stack : s.L.stack = v :: (l.slots ++ below g base)
  dom : s.domStack = l.node :: ls.map Level.node
  counts : l.Counts s.currentArrayIdx
  small : l.Small
  kept : Kept g s.L.heap l.table ls

/-- The table on top is opened. -/
theorem openNode_start (env : SenderEnv) {h : Heap} {c : Nat} {nodes : List DomNode} {idx dups : Nat} (stack : List LuaVal) :
    Serializer.openNode env ⟨⟨.table c :: stack, h⟩, nodes, idx, dups⟩ =
      some ⟨⟨(Level.start env c).slots ++ stack, h⟩, (Level.start env c).node :: nodes, (Level.start env c).count idx, dups⟩ := by
  rw [Serializer.openNode, Level.start]
  by_cases hlen : 0 < env.objlen c <;> simp [LuaState.at?, LuaState.push, hlen, Level.slots, Level.node, Level.count]

theorem enterTable_visited {env : SenderEnv} {c : Nat} (hh : Held g base s (.table c) l ls)
    (hin : c ∈ l.table :: ls.map Level.table) :
    s.enterTable env l.node = some (.inr (.error (.json .cycleExists))) := by
  obtain ⟨⟨stack, h⟩, dom, idx, dups⟩ := s
  obtain rfl : stack = _ := hh.stack
  have hvisited : h.fetch g.tables.length (.table c) = _ := hh.kept.visited c
  rw [if_pos hin] at hvisited
  cases l <;>
    simp [Serializer.enterTable, Level.node, DomNode.isArray, Level.slots, below, LuaState.pushvalue, LuaState.at?,
      LuaState.push, LuaState.rawget, hvisited]

theorem enterTable_new {env : SenderEnv} {c i : Nat} {h : Heap} {idx : Nat} (dups : Nat) (hk : Kept g h l.table ls)
    (hcounts : l.Counts idx) (hnew : c ∉ l.table :: ls.map Level.table)
    (hits : h.fetch (g.tables.length + 1) (.index (ls.length + 1)) = .table i) :
    Serializer.enterTable env ⟨⟨.table c :: (l.slots ++ below g base), h⟩, l.node :: ls.map Level.node, idx, dups⟩ l.node =
      if ls.length + 1 = Json.arrayKeyMax then some (.inr (.error (.json .tooManyLevels)))
      else some (.inl ⟨⟨(Level.start env c).slots ++ below g base, entered g h c (ls.length + 1) i l.iter⟩,
        (Level.start env c).node :: l.node :: ls.map Level.node, (Level.start env c).count idx, dups⟩) := by
  have hvisited := hk.visited c
  rw [if_neg hnew] at hvisited
  have hmarked : (h.assign g.tables.length (.table c) (.boolean true)).fetch (g.tables.length + 1)
      (.index (ls.length + 1)) = .table i := by
    rw [fetch_assign_ne (by omega), hits]
  by_cases hfull : ls.length + 1 = Json.arrayKeyMax
  · rw [if_pos hfull]
    cases l <;>
      simp [Serializer.enterTable, Level.node, DomNode.isArray, Level.slots, below, LuaState.pushvalue, LuaState.at?,
        LuaState.push, LuaState.rawget, LuaState.pop, LuaState.rawset, hvisited, hfull]
  · rw [if_neg hfull]
    cases l with
    | array t n a =>
        obtain rfl : n = idx := hcounts
        simp only [Serializer.enterTable, LuaState.pushvalue, Level.slots, below, List.cons_append, List.nil_append,
          LuaState.at?, tsub_self, List.length_cons, Order.lt_add_one_iff, zero_le, getElem?_pos, List.getElem_cons_zero,
          Option.map_some, LuaState.push, LuaState.rawget, DomNode.isArray, Level.node, ↓reduceIte, Nat.reduceAdd,
          Nat.add_one_sub_one, LuaState.pop, List.drop_one, LuaState.rawset, List.getElem?_cons_succ, List.length_map, hfull,
          LuaState.rawgeti, LuaState.rawseti, LuaState.remove, Order.lt_two_iff, true_and, LuaState.newtable,
          Option.bind_eq_bind, Option.bind_some, lt_add_iff_pos_left, List.getElem_cons_succ, hvisited,
          le_add_iff_nonneg_left, List.tail_cons, add_pos_iff, or_true, hmarked, Nat.ofNat_pos, List.eraseIdx_cons_succ,
          List.eraseIdx_zero, Heap.assign_tables_length, openNode_start, entered, Level.iter]
    | object t key m it =>
        simp only [Serializer.enterTable, LuaState.pushvalue, Level.slots, below, List.cons_append, List.nil_append,
          LuaState.at?, tsub_self, List.length_cons, Order.lt_add_one_iff, zero_le, getElem?_pos, List.getElem_cons_zero,
          Option.map_some, LuaState.push, LuaState.rawget, DomNode.isArray, Level.node, Bool.false_eq_true, ↓reduceIte, Nat.reduceAdd,
          Nat.add_one_sub_one, LuaState.pop, List.drop_one, LuaState.rawset, List.getElem?_cons_succ, List.length_map, hfull,
          LuaState.rawgeti, LuaState.rawseti, LuaState.remove, Order.lt_two_iff, true_and, LuaState.newtable,
          Option.bind_eq_bind, Option.bind_some, lt_add_iff_pos_left, List.getElem_cons_succ, hvisited,
          le_add_iff_nonneg_left, List.tail_cons, add_pos_iff, or_true, hmarked, Nat.ofNat_pos, List.eraseIdx_cons_succ,
          List.eraseIdx_zero, Heap.assign_tables_length, openNode_start, entered, Level.iter]

theorem Kept.table_eq {h : Heap} (hk : Kept g h t ls) {r : Nat} (hr : r < g.tables.length) :
    Json.table h r = Json.table g r := by
  rw [Json.table, hk.tables r hr, Json.table]

theorem Kept.item_eq {h : Heap} (env : SenderEnv) (hk : Kept g h t ls) {w : LuaVal} (hw : ∀ r, w = .table r → r < g.tables.length) :
    env.item h w = env.item g w := by
  cases w with
  | table r => rw [SenderEnv.item, SenderEnv.item, hk.table_eq (hw r rfl)]
  | userdata r => rw [SenderEnv.item, SenderEnv.item, hk.userdata]
  | _ => rfl

theorem item_table {env : SenderEnv} {w : LuaVal} {c : Nat} (h : env.item g w = .table c) : w = .table c := by
  cases w with
  | table r =>
      rw [SenderEnv.item] at h
      split at h
      · cases h
      · rw [Item.table.inj h]
  | userdata r =>
      rw [SenderEnv.item] at h
      repeat' split at h
      all_goals cases h
  | _ => cases h

theorem item_cdata {env : SenderEnv} {w : LuaVal} (h : env.item g w = .cdata) : ∃ r, w = .cdata r := by
  cases w with
  | cdata r => exact ⟨r, rfl⟩
  | table r =>
      rw [SenderEnv.item] at h
      split at h <;> cases h
  | userdata r =>
      rw [SenderEnv.item] at h
      repeat' split at h
      all_goals cases h
  | _ => cases h

/-- The switch goes by what the value is for the message. -/
theorem handleItem_eq (env : SenderEnv) {w : LuaVal} {rest : List LuaVal} {node : DomNode} {nodes : List DomNode}
    (hstack : s.L.stack = w :: rest) (hdom : s.domStack = node :: nodes) (hw : w ≠ .nil) :
    s.handleItem env = match env.item s.L.heap w with
      | .leaf x => s.putCurValue x
      | .descriptor fd =>
          match env.dup s.dups fd with
          | .ok newfd => Serializer.putCurValue { s with dups := s.dups + 1 } (.fileDescriptor newfd)
          | .error errno => some (.inr (.error (.system errno)))
      | .table _ => s.enterTable env node
      | .unsendable => s.ignoreCurItem
      | .cdata => some (.inl s) := by
  have htop : s.L.at? 1 = some w := by simp [LuaState.at?, hstack]
  have hhead : s.domStack.head? = some node := by rw [hdom]; rfl
  rw [Serializer.handleItem, hhead, htop]
  cases w with
  | nil => exact absurd rfl hw
  | userdata ref =>
      rw [SenderEnv.item]
      simp only [Option.bind_eq_bind, Option.bind_some]
      cases s.L.heap.userdata[ref]? with
      | none => rfl
      | some u =>
          cases u with
          | fileDescriptor fd =>
              by_cases hfd : fd = -1
              · simp [hfd]
              · cases hdup : env.dup s.dups fd <;> simp [hfd, hdup]
          | _ => rfl
  | table r =>
      rw [SenderEnv.item]
      cases hmt : (Json.table s.L.heap r).metatable <;> simp [hmt]
  | _ => rfl

theorem Held.putCurValue {w : LuaVal} (hh : Held g base s w l ls) (x : Value) :
    ∃ s', s.putCurValue x = some (.inl s') ∧ At g base s' (l.put x) ls ∧ s'.dups = s.dups := by
  obtain ⟨⟨stack, h⟩, dom, idx, dups⟩ := s
  obtain rfl : stack = _ := hh.stack
  obtain rfl : dom = _ := hh.dom
  refine ⟨⟨⟨l.slots ++ below g base, h⟩, l.node.put x :: ls.map Level.node, idx, dups⟩, ?_, ⟨?_, ?_, ?_, ?_, ?_⟩, rfl⟩
  · simp [Serializer.putCurValue, LuaState.pop]
  · rw [Level.slots_put]
  · rw [Level.node_put]
  · exact (l.counts_put x idx).mpr hh.counts
  · exact (l.small_put x).mpr hh.small
  · rw [Level.table_put]
    exact hh.kept

/-- Level `l` goes on without the value that was read, or ends. -/
def Ignored (g : Heap) (base : List LuaVal) (next : Option (Serializer ⊕ Outcome)) (ls : List Level) (dups : Nat) :
    Level → Prop
  | .array t _ a => ∃ s', next = s'.closeNode ∧ Closing g base s' t ls (.array a.dropLast) ∧ s'.dups = dups
  | .object t key m it => ∃ s', next = some (.inl s') ∧ At g base s' (.object t key (eraseKey m it) it) ls ∧ s'.dups = dups

theorem Held.ignoreCurItem {w : LuaVal} (hh : Held g base s w l ls) : Ignored g base s.ignoreCurItem ls s.dups l := by
  obtain ⟨⟨stack, h⟩, dom, idx, dups⟩ := s
  obtain rfl : stack = _ := hh.stack
  obtain rfl : dom = _ := hh.dom
  cases l with
  | array t n a =>
      refine ⟨⟨⟨.table t :: below g base, h⟩, .array a.dropLast :: ls.map Level.node, idx, dups⟩, ?_, ⟨rfl, ⟨_, rfl, rfl⟩, hh.kept⟩, rfl⟩
      simp [Serializer.ignoreCurItem, LuaState.pop, Level.node, Level.slots]
  | object t key m it =>
      refine ⟨⟨⟨[key, .table t] ++ below g base, h⟩, .object (eraseKey m it) it :: ls.map Level.node, idx, dups⟩, ?_,
        ⟨rfl, rfl, trivial, trivial, hh.kept⟩, rfl⟩
      simp [Serializer.ignoreCurItem, LuaState.pop, Level.node, Level.slots]

/-- From `s` on, the loop comes to the close of level `t` with what the recursion says. -/
def Comes (env : SenderEnv) (g : Heap) (base : List LuaVal) (t : Nat) (ls : List Level) (s : Serializer) :
    Except Halt (Value × Nat) → Prop
  | .ok (v, dups) => ∃ s' s'', Goes (Serializer.turn env) s s' ∧ s'.turn env = s''.closeNode ∧
      Closing g base s'' t ls v ∧ s''.dups = dups
  | .error (.raised e) => Ends (Serializer.turn env) s (.error e)
  | .error .cdata => Stuck (Serializer.turn env) s

theorem Comes.after {env : SenderEnv} {s' : Serializer} {r : Except Halt (Value × Nat)}
    (hgoes : Goes (Serializer.turn env) s s') (hc : Comes env g base t ls s' r) : Comes env g base t ls s r := by
  match r with
  | .ok (v, dups) =>
      obtain ⟨s₁, s₂, hrun, hrest⟩ := hc
      exact ⟨s₁, s₂, hgoes.trans hrun, hrest⟩
  | .error (.raised e) => exact Ends.after hgoes hc
  | .error .cdata => exact Stuck.after hgoes hc

/-- What the loop does with the value read at level `l`, of which the recursion says `r`. -/
def Handled (env : SenderEnv) (g : Heap) (base : List LuaVal) (l : Level) (ls : List Level) (s : Serializer) :
    Except Halt (Option Value × Nat) → Prop
  | .ok (some x, dups) => ∃ s', Goes (Serializer.turn env) s s' ∧ At g base s' (l.put x) ls ∧ s'.dups = dups
  | .ok (none, dups) => Ignored g base (s.turn env) ls dups l
  | .error (.raised e) => Ends (Serializer.turn env) s (.error e)
  | .error .cdata => Stuck (Serializer.turn env) s

/-- A table is entered, or not; its own level comes to its close by `hrec`. -/
theorem handled_table {env : SenderEnv} {recur : List Nat → Nat → Nat → Except Halt (Value × Nat)} {s₀ : Serializer} {c : Nat}
    (hturn : s₀.turn env = s.enterTable env l.node) (hh : Held g base s (.table c) l ls)
    (hfull : ls.length + 1 = Json.arrayKeyMax → ∀ path dups t, recur path dups t = .error (.raised (.json .tooManyLevels)))
    (hrec : ls.length + 1 ≠ Json.arrayKeyMax → ∀ s', At g base s' (Level.start env c) (l :: ls) →
      Comes env g base c (l :: ls) s' (recur (l.table :: ls.map Level.table) s'.dups c)) :
    Handled env g base l ls s₀ (if c ∈ l.table :: ls.map Level.table then .error (.raised (.json .cycleExists))
      else (recur (l.table :: ls.map Level.table) s.dups c).map fun r => (some r.1, r.2)) := by
  by_cases hin : c ∈ l.table :: ls.map Level.table
  · rw [if_pos hin]
    rw [enterTable_visited hh hin] at hturn
    exact ⟨s₀, .refl, hturn⟩
  rw [if_neg hin]
  obtain ⟨⟨stack, h⟩, dom, idx, dups⟩ := s
  obtain rfl : stack = _ := hh.stack
  obtain rfl : dom = _ := hh.dom
  have hk : Kept g h l.table ls := hh.kept
  obtain ⟨i, hi, hlt, hits, hnode, hsaved⟩ := hk.work
  rw [enterTable_new dups hk hh.counts hin hits] at hturn
  by_cases hroom : ls.length + 1 = Json.arrayKeyMax
  · rw [if_pos hroom] at hturn
    rw [hfull hroom]
    exact ⟨s₀, .refl, hturn⟩
  rw [if_neg hroom] at hturn
  have hkept := kept_entered hk hh.small hin (by have := hk.few; omega) hi hlt hits hnode hsaved
  have hstart : (Level.start env c).table = c := by
    rw [Level.start]
    split <;> rfl
  have hat : At g base ⟨⟨(Level.start env c).slots ++ below g base, entered g h c (ls.length + 1) i l.iter⟩,
      (Level.start env c).node :: l.node :: ls.map Level.node, (Level.start env c).count idx, dups⟩ (Level.start env c) (l :: ls) := by
    refine ⟨rfl, rfl, ?_, ?_, ?_⟩
    · rw [Level.start]
      split
      · rfl
      · trivial
    · rw [Level.start]
      split
      · exact Nat.zero_le _
      · trivial
    · rw [hstart]
      exact hkept
  have hcomes := hrec hroom _ hat
  simp only at hcomes ⊢
  match hr : recur (l.table :: ls.map Level.table) dups c with
  | .ok (v, dups') =>
      rw [hr] at hcomes
      obtain ⟨s₁, s₂, hgoes, hclose, hclosing, hdups⟩ := hcomes
      obtain ⟨s₃, hclosed, hat', hdups'⟩ := closeNode_outer hclosing
      exact ⟨s₃, (Goes.step hturn).trans (hgoes.trans (.step (hclose.trans hclosed))), hat', hdups'.trans hdups⟩
  | .error (.raised e) =>
      rw [hr] at hcomes
      exact Ends.after (.step hturn) hcomes
  | .error .cdata =>
      rw [hr] at hcomes
      exact Stuck.after (.step hturn) hcomes

theorem handled {env : SenderEnv} {recur : List Nat → Nat → Nat → Except Halt (Value × Nat)} {s₀ : Serializer} {w : LuaVal}
    (hturn : s₀.turn env = s.handleItem env) (hh : Held g base s w l ls) (hw : w ≠ .nil)
    (hclosed : ∀ r, w = .table r → r < g.tables.length) (hcdata : ∀ r, w = .cdata r → s.turn env = none)
    (hfull : ls.length + 1 = Json.arrayKeyMax → ∀ path dups t, recur path dups t = .error (.raised (.json .tooManyLevels)))
    (hrec : ls.length + 1 ≠ Json.arrayKeyMax → ∀ c s', c < g.tables.length → At g base s' (Level.start env c) (l :: ls) →
      Comes env g base c (l :: ls) s' (recur (l.table :: ls.map Level.table) s'.dups c)) :
    Handled env g base l ls s₀ (child env g true recur (l.table :: ls.map Level.table) s.dups w) := by
  rw [handleItem_eq env hh.stack hh.dom hw, hh.kept.item_eq env hclosed] at hturn
  rw [child]
  cases hitem : env.item g w with
  | leaf x =>
      rw [hitem] at hturn
      obtain ⟨s', hput, hat, hdups⟩ := hh.putCurValue x
      exact ⟨s', .step (hturn.trans hput), hat, hdups⟩
  | descriptor fd =>
      simp only [hitem] at hturn
      cases hdup : env.dup s.dups fd with
      | ok newfd =>
          simp only [hdup] at hturn ⊢
          have hh' : Held g base { s with dups := s.dups + 1 } w l ls := ⟨hh.stack, hh.dom, hh.counts, hh.small, hh.kept⟩
          obtain ⟨s', hput, hat, hdups⟩ := hh'.putCurValue (.fileDescriptor newfd)
          exact ⟨s', .step (hturn.trans hput), hat, hdups⟩
      | error errno =>
          simp only [hdup] at hturn ⊢
          exact ⟨s₀, .refl, hturn⟩
  | table c =>
      obtain rfl := item_table hitem
      rw [hitem] at hturn
      exact handled_table hturn hh hfull fun hroom s' hat => hrec hroom c s' (hclosed c rfl) hat
  | unsendable =>
      rw [hitem] at hturn
      have hignore : s₀.turn env = s.ignoreCurItem := hturn
      change Ignored g base (s₀.turn env) ls s.dups l
      rw [hignore]
      exact hh.ignoreCurItem
  | cdata =>
      obtain ⟨r, rfl⟩ := item_cdata hitem
      rw [hitem] at hturn
      exact ⟨s, .step hturn, hcdata r rfl⟩

/-- What follows a value decides what the level comes to. -/
theorem Handled.comes {env : SenderEnv} {r : Except Halt (Option Value × Nat)} {k : Option Value × Nat → Except Halt (Value × Nat)}
    (hh : Handled env g base l ls s r)
    (hsome : ∀ x s', At g base s' (l.put x) ls → Comes env g base t ls s' (k (some x, s'.dups)))
    (hnone : ∀ dups, Ignored g base (s.turn env) ls dups l → Comes env g base t ls s (k (none, dups))) :
    Comes env g base t ls s (r >>= k) := by
  match r with
  | .ok (some x, dups) =>
      obtain ⟨s', hgoes, hat, rfl⟩ := hh
      exact (hsome x s' hat).after hgoes
  | .ok (none, dups) => exact hnone dups hh
  | .error (.raised e) => exact hh
  | .error .cdata => exact hh

end

/-! The loops over the elements of an array and the fields of an object. -/

theorem lookup_closed {g : Graph} {t : Nat} {f : LuaVal × LuaVal} (hf : ∃ e ∈ (Json.table g.heap t).fields.entries, e.2 = f.2)
    {r : Nat} (hr : f.2 = .table r) : r < g.heap.tables.length := by
  obtain ⟨e, he, heq⟩ := hf
  rw [Json.table] at he
  cases hget : g.heap.tables[t]? with
  | none =>
      rw [hget] at he
      cases he
  | some x =>
      rw [hget] at he
      exact g.closed x (List.mem_of_getElem? hget) e he r (heq.trans hr)

theorem fields_small (g : Graph) (t : Nat) : (Json.table g.heap t).fields.entries.length < Json.arrayKeyMax := by
  rw [Json.table]
  cases hget : g.heap.tables[t]? with
  | none => decide
  | some x => exact g.small x (List.mem_of_getElem? hget)

theorem fresh_key {m : List (Bytes × Value)} {k : Bytes} (hnew : m.lookup k = none) : ∀ e ∈ m, e.1 ≠ k := by
  intro e he heq
  have hne := List.lookup_eq_none_iff.mp hnew e he
  simp [heq] at hne

theorem emplace_fresh {m : List (Bytes × Value)} {k : Bytes} (hnew : m.lookup k = none) (x : Value) :
    emplace m k x = insertKey m k x := by
  rw [emplace, hnew]
  rfl

theorem assignKey_emplace {m : List (Bytes × Value)} {k : Bytes} (hnew : m.lookup k = none) (x y : Value) :
    assignKey (emplace m k y) k x = emplace m k x := by
  rw [emplace_fresh hnew, emplace_fresh hnew]
  have hfresh := fresh_key hnew
  have hsame : ∀ m' : List (Bytes × Value), (∀ e ∈ m', e.1 ≠ k) → assignKey m' k x = m' := by
    intro m' hm'
    refine (List.map_congr_left fun e he => if_neg (hm' e he)).trans (List.map_id _)
  clear hnew
  induction m with
  | nil => simp [insertKey, assignKey]
  | cons e m ih =>
      rw [List.forall_mem_cons] at hfresh
      rw [insertKey, insertKey]
      split
      · rw [assignKey, List.map_cons, if_pos rfl]
        exact congrArg _ (hsame _ (List.forall_mem_cons.mpr hfresh))
      · rw [assignKey, List.map_cons, if_neg hfresh.1]
        exact congrArg _ (ih hfresh.2)

theorem eraseKey_emplace {m : List (Bytes × Value)} {k : Bytes} (hnew : m.lookup k = none) (x : Value) :
    eraseKey (emplace m k x) k = m := by
  rw [emplace_fresh hnew]
  have hfresh := fresh_key hnew
  have hsame : ∀ m' : List (Bytes × Value), (∀ e ∈ m', e.1 ≠ k) → eraseKey m' k = m' :=
    fun m' hm' => List.filter_eq_self.mpr fun e he => decide_eq_true (hm' e he)
  clear hnew
  induction m with
  | nil => simp [insertKey, eraseKey]
  | cons e m ih =>
      rw [List.forall_mem_cons] at hfresh
      rw [insertKey]
      split
      · rw [eraseKey, List.filter_cons_of_neg (by simp)]
        exact hsame _ (List.forall_mem_cons.mpr hfresh)
      · rw [eraseKey, List.filter_cons_of_pos (by simpa using hfresh.1)]
        exact congrArg _ (ih hfresh.2)

section
variable {env : SenderEnv} {recur : List Nat → Nat → Nat → Except Halt (Value × Nat)} {g : Graph} {base : List LuaVal}
  {ls : List Level} {t : Nat}
  (ht : t < g.heap.tables.length)
  (hfull : ls.length + 1 = Json.arrayKeyMax → ∀ path dups t, recur path dups t = .error (.raised (.json .tooManyLevels)))
  (hrec : ls.length + 1 ≠ Json.arrayKeyMax → ∀ l : Level, l.table = t → ∀ c s', c < g.heap.tables.length →
    At g.heap base s' (Level.start env c) (l :: ls) →
    Comes env g.heap base c (l :: ls) s' (recur (t :: ls.map Level.table) s'.dups c))
include ht hfull hrec

theorem comes_elements {vs : List LuaVal} {i : Nat} {a : List Value} {s : Serializer} (hat : At g.heap base s (.array t i a) ls)
    (hvs : ElementsFrom (Json.table g.heap t) i vs) (hlen : i + vs.length < Json.arrayKeyMax)
    (hclosed : ∀ w ∈ vs, ∀ r, w = .table r → r < g.heap.tables.length) :
    Comes env g.heap base t ls s (elements env g.heap true recur (t :: ls.map Level.table) vs a s.dups) := by
  induction vs generalizing i a s with
  | nil =>
      obtain ⟨⟨stack, h⟩, dom, idx, dups⟩ := s
      obtain rfl : stack = _ := hat.stack
      obtain rfl : dom = _ := hat.dom
      obtain rfl : i = idx := hat.counts
      have hk : Kept g.heap h t ls := hat.kept
      have hget : h.fetch t (.index (i + 1)) = .nil := by
        rw [fetch_table, hk.table_eq ht]
        exact hvs
      have hmore : i ≠ Json.arrayKeyMax := by
        rw [List.length_nil] at hlen
        omega
      refine ⟨_, ⟨⟨.table t :: below g.heap base, h⟩, .array a :: ls.map Level.node, i + 1, dups⟩, .refl, ?_,
        ⟨rfl, ⟨_, rfl, rfl⟩, hk⟩, rfl⟩
      simp [Serializer.turn, Level.node, Level.slots, hmore, LuaState.rawgeti, LuaState.at?, LuaState.push, LuaState.pop, hget]
  | cons w vs ih =>
      obtain ⟨⟨stack, h⟩, dom, idx, dups⟩ := s
      obtain rfl : stack = _ := hat.stack
      obtain rfl : dom = _ := hat.dom
      obtain rfl : i = idx := hat.counts
      obtain ⟨hget, hw, hvs⟩ := hvs
      have hk : Kept g.heap h t ls := hat.kept
      rw [← hk.table_eq ht, ← fetch_table] at hget
      rw [List.length_cons] at hlen
      have hmore : i ≠ Json.arrayKeyMax := by omega
      have hnext : i + 1 ≠ Json.arrayKeyMax := by omega
      have hheld : Held g.heap base ⟨⟨w :: .table t :: below g.heap base, h⟩,
          .array (a ++ [.boolean false]) :: ls.map Level.node, i + 1, dups⟩ w (.array t (i + 1) (a ++ [.boolean false])) ls :=
        ⟨rfl, rfl, rfl, by change i + 1 ≤ _; omega, hk⟩
      have hhandled := @handled g.heap base _ _ ls env recur
        ⟨⟨(Level.array t i a).slots ++ below g.heap base, h⟩, (Level.array t i a).node :: ls.map Level.node, i, dups⟩ w
        (by cases w with
          | nil => exact absurd rfl hw
          | _ => simp [Serializer.turn, Level.node, Level.slots, hmore, LuaState.rawgeti, LuaState.at?, LuaState.push, hget])
        hheld hw (hclosed w List.mem_cons_self)
        (by
          rintro r rfl
          simp [Serializer.turn, hnext, LuaState.rawgeti, LuaState.at?])
        hfull (fun hroom c s' => hrec hroom _ rfl c s')
      rw [elements]
      refine hhandled.comes (fun x s' hat' => ?_) fun dups' hignored => ?_
      · have hput : (Level.array t (i + 1) (a ++ [.boolean false])).put x = .array t (i + 1) (a ++ [x]) := by
          rw [Level.put, List.dropLast_concat]
        rw [hput] at hat'
        exact ih hat' hvs (by omega) fun w' hw' => hclosed w' (List.mem_cons_of_mem _ hw')
      · obtain ⟨s', hclose, hclosing, hdups⟩ := hignored
        rw [List.dropLast_concat] at hclosing
        exact ⟨_, s', .refl, hclose, hclosing, hdups⟩

theorem comes_members {fs pre : List (LuaVal × LuaVal)} {key : LuaVal} {m : List (Bytes × Value)} {it : Bytes} {s : Serializer}
    (hat : At g.heap base s (.object t key m it) ls) (hfs : (Json.table g.heap t).pairs = pre ++ fs)
    (hkey : (Json.table g.heap t).after key = some fs) (hnew : ∀ k v, (LuaVal.string k, v) ∈ fs → m.lookup k = none) :
    Comes env g.heap base t ls s (members env g.heap true recur (t :: ls.map Level.table) fs m s.dups) := by
  induction fs generalizing pre key m it s with
  | nil =>
      obtain ⟨⟨stack, h⟩, dom, idx, dups⟩ := s
      obtain rfl : stack = _ := hat.stack
      obtain rfl : dom = _ := hat.dom
      have hk : Kept g.heap h t ls := hat.kept
      rw [← hk.table_eq ht] at hkey
      refine ⟨_, ⟨⟨.table t :: below g.heap base, h⟩, .object m it :: ls.map Level.node, idx, dups⟩, .refl, ?_,
        ⟨rfl, ⟨_, rfl, rfl⟩, hk⟩, rfl⟩
      simp [Serializer.turn, Level.node, Level.slots, LuaState.next, LuaState.at?, hkey]
  | cons f fs ih =>
      obtain ⟨⟨stack, h⟩, dom, idx, dups⟩ := s
      obtain rfl : stack = _ := hat.stack
      obtain rfl : dom = _ := hat.dom
      obtain ⟨k, w⟩ := f
      have hk : Kept g.heap h t ls := hat.kept
      have hafter := after_key hfs
      have hfs' : (Json.table g.heap t).pairs = (pre ++ [(k, w)]) ++ fs := by
        rw [hfs, List.append_assoc, List.singleton_append]
      have hlive := mem_pairs (show (k, w) ∈ (Json.table g.heap t).pairs by simp [hfs])
      have hnodup := pairs_nodup (Json.table g.heap t)
      rw [hfs, List.map_append, List.map_cons] at hnodup
      have hother : ∀ v, (k, v) ∉ fs := fun v hv =>
        (List.nodup_cons.mp (List.nodup_append.mp hnodup).2.1).1 (List.mem_map.mpr ⟨_, hv, rfl⟩)
      rw [← hk.table_eq ht] at hkey
      have hskip : (∀ str, k ≠ .string str) →
          Serializer.turn env ⟨⟨(Level.object t key m it).slots ++ below g.heap base, h⟩,
            (Level.object t key m it).node :: ls.map Level.node, idx, dups⟩ =
          some (.inl ⟨⟨[k, .table t] ++ below g.heap base, h⟩, .object m it :: ls.map Level.node, idx, dups⟩) := by
        intro hk'
        cases k with
        | string str => exact absurd rfl (hk' str)
        | _ => simp [Serializer.turn, Level.node, Level.slots, LuaState.next, LuaState.at?, LuaState.pop, hkey]
      cases k with
      | string str =>
          have hheld : Held g.heap base ⟨⟨w :: .string str :: .table t :: below g.heap base, h⟩,
              .object (emplace m str (.boolean false)) str :: ls.map Level.node, idx, dups⟩ w
              (.object t (.string str) (emplace m str (.boolean false)) str) ls :=
            ⟨rfl, rfl, trivial, trivial, hk⟩
          have hfree := hnew str w List.mem_cons_self
          have hhandled := @handled g.heap base _ _ ls env recur
            ⟨⟨(Level.object t key m it).slots ++ below g.heap base, h⟩, (Level.object t key m it).node :: ls.map Level.node, idx, dups⟩ w
            (by simp [Serializer.turn, Level.node, Level.slots, LuaState.next, LuaState.at?, hkey])
            hheld hlive.2.1 (fun r hr => lookup_closed hlive.2.2 hr)
            (by
              rintro r rfl
              simp [Serializer.turn, LuaState.next, LuaState.at?])
            hfull (fun hroom c s' => hrec hroom _ rfl c s')
          have hrest : ∀ k' v, (LuaVal.string k', v) ∈ fs → k' ≠ str ∧ m.lookup k' = none := by
            intro k' v hv
            refine ⟨?_, hnew k' v (List.mem_cons_of_mem _ hv)⟩
            rintro rfl
            exact hother v hv
          rw [members]
          refine hhandled.comes (fun x s' hat' => ?_) fun dups' hignored => ?_
          · rw [Level.put, assignKey_emplace hfree] at hat'
            refine ih hat' hfs' hafter fun k' v hv => ?_
            rw [lookup_emplace, (hrest k' v hv).2, if_neg (hrest k' v hv).1]
            rfl
          · obtain ⟨s', hnext, hat', hdups⟩ := hignored
            rw [eraseKey_emplace hfree] at hat'
            exact hdups ▸ (ih hat' hfs' hafter fun k' v hv => (hrest k' v hv).2).after (.step hnext)
      | _ =>
          rw [members]
          · refine (ih (s := ⟨⟨_, h⟩, _, idx, dups⟩) ⟨rfl, rfl, trivial, trivial, hk⟩ hfs' hafter ?_).after (.step (hskip (by simp)))
            exact fun k' v hv => hnew k' v (List.mem_cons_of_mem _ hv)
          · simp

theorem comes_contents {s : Serializer} (hat : At g.heap base s (Level.start env t) ls) :
    Comes env g.heap base t ls s (contents env g.heap true recur (ls.map Level.table) s.dups t) := by
  have hsmall := fields_small g t
  rw [contents]
  by_cases hlen : 0 < env.objlen t
  · rw [if_pos hlen]
    rw [Level.start, if_pos hlen] at hat
    have hle := ipairsFrom_length (Json.table g.heap t) (Json.table g.heap t).fields.entries.length 1
    have hbound : (Json.table g.heap t).fields.entries.length + 1 < 2 ^ 53 := by
      rw [Json.arrayKeyMax] at hsmall
      omega
    have helements := elementsFrom_ipairs hbound
    refine comes_elements ht hfull hrec hat helements (by rw [Nat.zero_add]; exact hle.trans_lt hsmall) fun w hw r hr => ?_
    obtain ⟨e, he, heq⟩ := mem_ipairsFrom hw
    exact lookup_closed (f := (e.1, w)) ⟨e, he, heq⟩ hr
  · rw [if_neg hlen]
    rw [Level.start, if_neg hlen] at hat
    have hall : (Json.table g.heap t).pairs = [] ++ (Json.table g.heap t).pairs := rfl
    exact comes_members ht hfull hrec hat hall rfl fun _ _ _ => rfl

end

theorem comes_message {env : SenderEnv} {g : Graph} {base : List LuaVal} {ls : List Level} {t room : Nat} {s : Serializer}
    (ht : t < g.heap.tables.length) (hroom : ls.length + 1 + room = Json.arrayKeyMax)
    (hat : At g.heap base s (Level.start env t) ls) :
    Comes env g.heap base t ls s (message env g.heap true room (ls.map Level.table) s.dups t) := by
  induction room generalizing ls t s with
  | zero => exact comes_contents ht (fun _ _ _ _ => rfl) (fun hne => absurd hroom hne) hat
  | succ room ih =>
      refine comes_contents ht (fun hfull => absurd hfull (by omega)) (fun _ l hl c s' hc hat' => ?_) hat
      rw [← hl]
      exact ih hc (by rw [List.length_cons]; omega) hat'

/-! The start of the loop. -/

/-- The heap when the loop starts. -/
def started (g : Graph) : Heap :=
  (((((g.heap.create false).assign g.heap.tables.length (.table g.root) (.boolean true)).create false).create false).assign
    (g.heap.tables.length + 2) (.index nodeIdx) (.table g.root)).assign (g.heap.tables.length + 1) (.index 1)
      (.table (g.heap.tables.length + 2))

theorem fetch_beyond {h : Heap} {r : Nat} {k : LuaVal} (hr : h.tables.length ≤ r) : h.fetch r k = .nil := by
  rw [Heap.fetch, Heap.rawget, List.getElem?_eq_none hr]
  rfl

theorem kept_started (g : Graph) : Kept g.heap (started g) g.root [] := by
  refine ⟨rfl, ?_, List.nodup_singleton _, ?_, ?_, by decide, g.heap.tables.length + 2, le_rfl, ?_, ?_, ?_, trivial⟩
  · intro r hr
    rw [started, Heap.assign_ne _ _ _ (by omega), Heap.assign_ne _ _ _ (by omega),
      Heap.create_same _ _ (by simp [Heap.create]; omega), Heap.create_same _ _ (by simp [Heap.create]; omega),
      Heap.assign_ne _ _ _ (by omega), Heap.create_same _ _ hr]
  · intro r
    rw [started, fetch_assign_ne (by omega), fetch_assign_ne (by omega), fetch_create, fetch_create,
      fetch_assign (by simp [Heap.create]), fetch_create, fetch_beyond le_rfl]
    simp
  · exact fun l hl => absurd hl (List.not_mem_nil)
  · simp [started, Heap.create]
  · rw [started, fetch_assign (by simp [Heap.create]), List.length_nil, if_pos ⟨rfl, rfl⟩]
  · rw [started, fetch_assign_ne (by omega), fetch_assign (by simp [Heap.create]), if_pos ⟨rfl, rfl⟩]

theorem serializeStart_at (env : SenderEnv) (g : Graph) (base : List LuaVal) :
    ∃ s, serializeStart env ⟨base, g.heap⟩ g.root = some s ∧ At g.heap base s (Level.start env g.root) [] ∧ s.dups = 0 := by
  refine ⟨⟨⟨(Level.start env g.root).slots ++ below g.heap base, started g⟩, [(Level.start env g.root).node],
    (Level.start env g.root).count 0, 0⟩, ?_, ⟨rfl, rfl, ?_, ?_, ?_⟩, rfl⟩
  · simp [serializeStart, LuaState.newtable, LuaState.push, LuaState.rawset, LuaState.at?, LuaState.pushvalue, LuaState.rawseti,
      openNode_start, below, started, Heap.create]
  · rw [Level.start]
    split
    · rfl
    · trivial
  · rw [Level.start]
    split
    · exact Nat.zero_le _
    · trivial
  · have htable : (Level.start env g.root).table = g.root := by
      rw [Level.start]
      split <;> rfl
    rw [htable]
    exact kept_started g

/-! The strict recursion and the other one. -/

section
variable {α β : Type} {x y : Except Halt α} {k k' : α → Except Halt β}

/-- Where the strict recursion does not stop at a `cdata`, the other one is the same. -/
def Same (x y : Except Halt α) : Prop := x ≠ .error .cdata → y = x

theorem Same.refl (x : Except Halt α) : Same x x := fun _ => rfl

theorem Same.bind (hx : Same x y) (hk : ∀ a, Same (k a) (k' a)) : Same (x >>= k) (y >>= k') := by
  intro hne
  cases x with
  | error e =>
      rw [hx fun h => hne (by rw [h]; rfl)]
      rfl
  | ok a =>
      rw [hx nofun]
      exact hk a hne

theorem Same.map (hx : Same x y) (f : α → β) : Same (x.map f) (y.map f) := by
  intro hne
  rw [hx fun h => hne (by rw [h]; rfl)]

end

section
variable {env : SenderEnv} {h : Heap} {recur recur' : List Nat → Nat → Nat → Except Halt (Value × Nat)} {path : List Nat}

theorem child_same (hrec : ∀ path dups t, Same (recur path dups t) (recur' path dups t)) (dups : Nat) (v : LuaVal) :
    Same (child env h true recur path dups v) (child env h false recur' path dups v) := by
  rw [child, child]
  cases env.item h v with
  | leaf x => exact .refl _
  | descriptor fd => exact .refl _
  | table t =>
      simp only
      split
      · exact .refl _
      · exact (hrec path dups t).map _
  | unsendable => exact .refl _
  | cdata => exact fun hne => absurd rfl hne

theorem elements_same (hrec : ∀ path dups t, Same (recur path dups t) (recur' path dups t)) (vs : List LuaVal)
    (a : List Value) (dups : Nat) :
    Same (elements env h true recur path vs a dups) (elements env h false recur' path vs a dups) := by
  induction vs generalizing a dups with
  | nil => exact .refl _
  | cons v vs ih =>
      rw [elements, elements]
      refine (child_same hrec dups v).bind fun r => ?_
      match r with
      | (some x, dups) => exact ih _ dups
      | (none, dups) => exact .refl _

theorem members_same (hrec : ∀ path dups t, Same (recur path dups t) (recur' path dups t)) (fs : List (LuaVal × LuaVal))
    (m : List (Bytes × Value)) (dups : Nat) :
    Same (members env h true recur path fs m dups) (members env h false recur' path fs m dups) := by
  induction fs generalizing m dups with
  | nil => exact .refl _
  | cons f fs ih =>
      obtain ⟨k, v⟩ := f
      cases k with
      | string str =>
          rw [members, members]
          refine (child_same hrec dups v).bind fun r => ?_
          match r with
          | (some x, dups) => exact ih _ dups
          | (none, dups) => exact ih m dups
      | _ => exact ih m dups

theorem contents_same (hrec : ∀ path dups t, Same (recur path dups t) (recur' path dups t)) (dups t : Nat) :
    Same (contents env h true recur path dups t) (contents env h false recur' path dups t) := by
  rw [contents, contents]
  split
  · exact elements_same hrec _ _ _
  · exact members_same hrec _ _ _

theorem message_same (room : Nat) (path : List Nat) (dups t : Nat) :
    Same (message env h true room path dups t) (message env h false room path dups t) := by
  induction room generalizing path dups t with
  | zero => exact contents_same (fun _ _ _ => .refl _) dups t
  | succ room ih => exact contents_same ih dups t

end

theorem specification_same (env : SenderEnv) (g : Graph) : Same (specification env true g) (specification env false g) := by
  rw [specification, specification]
  split
  · exact .refl _
  · exact message_same _ _ _ _

/-! The whole case. -/

/-- The loop ends as the recursion says, leaves the stack as it was, and has not touched the graph. -/
def Agrees (g : Graph) (base : List LuaVal) : Outcome → Except Halt (Value × Nat) → Prop
  | .ok (L, v, dups), .ok (v', dups') => v = v' ∧ dups = dups' ∧ L.stack = base ∧ L.heap.userdata = g.heap.userdata ∧
      ∀ r < g.heap.tables.length, L.heap.tables[r]? = g.heap.tables[r]?
  | .error e, .error (.raised e') => e = e'
  | _, _ => False

theorem serialize_run {env : SenderEnv} {g : Graph} {base : List LuaVal} {s : Serializer}
    (hroot : (Json.table g.heap g.root).metatable = false) (hstart : serializeStart env ⟨base, g.heap⟩ g.root = some s)
    (fuel : Nat) : serialize env fuel ⟨base, g.heap⟩ g.root = Iterate.run (Serializer.turn env) fuel s := by
  rw [serialize, hroot, if_neg Bool.false_ne_true, hstart, Option.bind_some]

/-- What the case comes to, when the strict recursion says `r`. -/
def Settles (env : SenderEnv) (g : Graph) (base : List LuaVal) : Except Halt (Value × Nat) → Prop
  | .error .cdata => ∀ fuel, serialize env fuel ⟨base, g.heap⟩ g.root = none
  | r => ∃ fuel o, serialize env fuel ⟨base, g.heap⟩ g.root = some o ∧ Agrees g base o r

theorem serialize_settles (env : SenderEnv) (g : Graph) (base : List LuaVal) :
    Settles env g base (specification env true g) := by
  cases hroot : (Json.table g.heap g.root).metatable with
  | true =>
      rw [specification, if_pos hroot]
      exact ⟨0, .error .invalidArgument, by simp only [serialize, hroot, if_true], rfl⟩
  | false =>
      obtain ⟨s, hstart, hat, hdups⟩ := serializeStart_at env g base
      have hcomes := @comes_message env g base [] g.root (Json.arrayKeyMax - 1) s g.root_lt (by decide) hat
      rw [specification, hroot, if_neg Bool.false_ne_true]
      rw [List.map_nil, hdups] at hcomes
      match hr : message env g.heap true (Json.arrayKeyMax - 1) [] 0 g.root with
      | .error .cdata =>
          rw [hr] at hcomes
          exact fun fuel => by rw [serialize_run hroot hstart, Stuck.not_run hcomes]
      | .error (.raised e) =>
          rw [hr] at hcomes
          obtain ⟨fuel, hrun⟩ := run_of_ends hcomes
          exact ⟨fuel, .error e, by rw [serialize_run hroot hstart, hrun], rfl⟩
      | .ok (v, dups) =>
          rw [hr] at hcomes
          obtain ⟨s', s'', hgoes, hturn, hclosing, rfl⟩ := hcomes
          obtain ⟨L, hlast, hstack, hheap⟩ := closeNode_last hclosing
          obtain ⟨fuel, hrun⟩ := run_of_ends ⟨s', hgoes, hturn.trans hlast⟩
          exact ⟨fuel, .ok (L, v, s''.dups), by rw [serialize_run hroot hstart, hrun],
            rfl, rfl, hstack, hheap ▸ hclosing.kept.userdata, hheap ▸ hclosing.kept.tables⟩

/-- The case has one outcome, whatever the fuel. -/
theorem serialize_unique {env : SenderEnv} {L : LuaState} {t fuel fuel' : Nat} {o o' : Outcome}
    (h : serialize env fuel L t = some o) (h' : serialize env fuel' L t = some o') : o = o' := by
  rw [serialize] at h h'
  split at h
  · rename_i hroot
    rw [if_pos hroot] at h'
    cases h
    cases h'
    rfl
  · rename_i hroot
    rw [if_neg hroot] at h'
    obtain ⟨s, hs, hrun⟩ := Option.bind_eq_some_iff.mp h
    obtain ⟨s', hs', hrun'⟩ := Option.bind_eq_some_iff.mp h'
    rw [hs] at hs'
    cases hs'
    exact run_unique hrun hrun'

/-- An outcome is the one that the strict recursion says. -/
theorem serialize_agrees {env : SenderEnv} {g : Graph} {base : List LuaVal} {fuel : Nat} {o : Outcome}
    (h : serialize env fuel ⟨base, g.heap⟩ g.root = some o) : Agrees g base o (specification env true g) := by
  have hsettles := serialize_settles env g base
  match hr : specification env true g with
  | .error .cdata =>
      rw [hr] at hsettles
      rw [hsettles fuel] at h
      cases h
  | .error (.raised e) =>
      rw [hr] at hsettles
      obtain ⟨fuel', o', hrun, hagrees⟩ := hsettles
      rwa [← serialize_unique h hrun] at hagrees
  | .ok (v', dups') =>
      rw [hr] at hsettles
      obtain ⟨fuel', o', hrun, hagrees⟩ := hsettles
      rwa [← serialize_unique h hrun] at hagrees

theorem agrees_ok {g : Graph} {base : List LuaVal} {L : LuaState} {v : Value} {dups : Nat} {r : Except Halt (Value × Nat)}
    (h : Agrees g base (.ok (L, v, dups)) r) : r = .ok (v, dups) := by
  match r with
  | .ok (v', dups') =>
      obtain ⟨rfl, rfl, -⟩ := h
      rfl
  | .error _ => exact h.elim

theorem agrees_error {g : Graph} {base : List LuaVal} {e : SerializeError} {r : Except Halt (Value × Nat)}
    (h : Agrees g base (.error e) r) : r = .error (.raised e) := by
  match r with
  | .ok _ => exact h.elim
  | .error .cdata => exact h.elim
  | .error (.raised e') =>
      obtain rfl : e = e' := h
      rfl

/-- The loop does what the recursion says, exactly if that does not meet a `cdata`. -/
theorem serialize_iff (env : SenderEnv) (g : Graph) (base : List LuaVal) :
    (∃ fuel r, serialize env fuel ⟨base, g.heap⟩ g.root = some r ∧ Agrees g base r (specification env false g)) ↔
      specification env true g ≠ .error .cdata := by
  have hsettles := serialize_settles env g base
  have hsame := specification_same env g
  match hr : specification env true g with
  | .error .cdata =>
      rw [hr] at hsettles
      refine ⟨?_, fun hne => absurd rfl hne⟩
      rintro ⟨fuel, r, hrun, -⟩
      rw [hsettles fuel] at hrun
      cases hrun
  | .error (.raised e) =>
      rw [hr] at hsettles hsame
      refine ⟨fun _ => by simp, fun hne => ?_⟩
      rw [hsame hne]
      exact hsettles
  | .ok (v, dups) =>
      rw [hr] at hsettles hsame
      refine ⟨fun _ => by simp, fun hne => ?_⟩
      rw [hsame hne]
      exact hsettles

end Emilua
