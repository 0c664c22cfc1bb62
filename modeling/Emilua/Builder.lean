import Emilua.Lib.Keyed
import Emilua.Stack

/-!
Building nested tables from the events of a traversal. Besides the tables that
are built there is one that lists those still open, from the outermost on, and
that is how a finished table's parent is found again.

What is built for a tree is said with its numbers: the tables of a tree follow
one another in the order their nodes are met, and so do the userdata its leaves
turn into. No two places of a built value share a table or a userdata.
-/
namespace Emilua
open Keyed

/-- How leaves become Lua values, when so many userdata are in the heap already. -/
structure Leaves (ι : Type) where
  value : Nat → ι → LuaVal
  objects : ι → List Userdata
  value_ne : ∀ u a, value u a ≠ .nil

/-- The heap and the open tables, innermost first. -/
structure Build where
  heap : Heap
  levels : List Nat

section Builder
variable {ι : Type} (leaves : Leaves ι) (tag : Bool) (tree : Nat)

/-- Nodes labelled `true` are given a metatable if `tag` says so. -/
def Build.step (s : Build) : Event LuaVal ι Bool → Option Build
  | .leaf key a =>
      match s.levels with
      | cur :: _ =>
          let heap := { s.heap with userdata := s.heap.userdata ++ leaves.objects a }
          some { s with heap := heap.assign cur key (leaves.value s.heap.userdata.length a) }
      | [] => none
  | .enter key label =>
      match s.levels with
      | cur :: _ =>
          let new := s.heap.tables.length
          let heap := (s.heap.create (tag && label)).assign cur key (.table new)
          some ⟨heap.assign tree (.index (s.levels.length + 1)) (.table new), new :: s.levels⟩
      | [] => none
  | .leave =>
      match s.levels with
      | _ :: parent :: outer =>
          some ⟨s.heap.assign tree (.index s.levels.length) .nil, parent :: outer⟩
      | _ => none

def Build.run (es : List (Event LuaVal ι Bool)) (s : Build) : Option Build :=
  es.foldlM (Build.step leaves tag tree) s

theorem Build.run_append (es es' : List (Event LuaVal ι Bool)) (s : Build) :
    Build.run leaves tag tree (es ++ es') s =
      (Build.run leaves tag tree es s).bind (Build.run leaves tag tree es') := by
  rw [Build.run, List.foldlM_append]
  rfl

mutual

/-- The value is the one built for the tree from table `t` and userdata `u` on. -/
def Denotes (h : Heap) (t u : Nat) : Tree LuaVal ι Bool → LuaVal → Prop
  | .leaf a, v => v = leaves.value u a
  | .node label children, v =>
      v = .table t ∧ (h.tables[t]?).map LuaTable.metatable = some (tag && label) ∧
        ∃ es, h.Holds t es ∧ DenotesForest h (t + 1) u children es

def DenotesForest (h : Heap) (t u : Nat) : Forest LuaVal ι Bool → List (LuaVal × LuaVal) → Prop
  | .nil, es => es = []
  | .cons key child rest, es => ∃ v es', es = (key, v) :: es' ∧ Denotes h t u child v ∧
      DenotesForest h (t + child.nodes) (u + (child.leaves.flatMap leaves.objects).length) rest es'

end

mutual

/-- As `Denotes`, where a key may come again: what was built for it last is the
value, and what was built before is still there. -/
def Built (h : Heap) (t u : Nat) : Tree LuaVal ι Bool → LuaVal → Prop
  | .leaf a, v => v = leaves.value u a
  | .node label children, v =>
      v = .table t ∧ (h.tables[t]?).map LuaTable.metatable = some (tag && label) ∧
        ∃ es, h.Latest t es ∧ BuiltForest h (t + 1) u children es

def BuiltForest (h : Heap) (t u : Nat) : Forest LuaVal ι Bool → List (LuaVal × LuaVal) → Prop
  | .nil, es => es = []
  | .cons key child rest, es => ∃ v es', es = (key, v) :: es' ∧ Built h t u child v ∧
      BuiltForest h (t + child.nodes) (u + (child.leaves.flatMap leaves.objects).length) rest es'

end

variable {leaves tag tree}

theorem BuiltForest.keys {h : Heap} {t u : Nat} : {f : Forest LuaVal ι Bool} → {es : List (LuaVal × LuaVal)} →
    BuiltForest leaves tag h t u f es → es.map Prod.fst = f.keys
  | .nil, es, hes => by
      rw [hes]
      rfl
  | .cons key child rest, es, hes => by
      obtain ⟨v, es', rfl, -, hrest⟩ := hes
      rw [List.map_cons, Forest.keys, hrest.keys]

mutual

/-- Where no key comes again. -/
theorem Built.denotes {h : Heap} {t u : Nat} : {x : Tree LuaVal ι Bool} → {v : LuaVal} →
    Built leaves tag h t u x v → x.Unique → Denotes leaves tag h t u x v
  | .leaf _, _, hv, _ => hv
  | .node label children, v, hv, hunique => by
      obtain ⟨heq, hmeta, es, hes, hchildren⟩ := hv
      have hnodup : (es.map Prod.fst).Nodup := hchildren.keys ▸ hunique.1
      exact ⟨heq, hmeta, es, hes.holds hnodup, hchildren.denotes hunique.2⟩

theorem BuiltForest.denotes {h : Heap} {t u : Nat} : {f : Forest LuaVal ι Bool} → {es : List (LuaVal × LuaVal)} →
    BuiltForest leaves tag h t u f es → f.Unique → DenotesForest leaves tag h t u f es
  | .nil, _, hes, _ => hes
  | .cons key child rest, es, hes, hunique => by
      obtain ⟨v, es', heq, hchild, hrest⟩ := hes
      exact ⟨v, es', heq, hchild.denotes hunique.1, hrest.denotes hunique.2⟩

end

mutual

/-- What is built for a tree stays as long as its own tables do. -/
theorem Built.of_same {h h' : Heap} {t u : Nat} : {x : Tree LuaVal ι Bool} → {v : LuaVal} →
    Built leaves tag h t u x v →
    (∀ r, t ≤ r → r < t + x.nodes → h'.tables[r]? = h.tables[r]?) → Built leaves tag h' t u x v
  | .leaf _, _, hv, _ => hv
  | .node label children, v, hv, hsame => by
      obtain ⟨heq, hmeta, es, hes, hchildren⟩ := hv
      rw [Tree.nodes] at hsame
      have hown : h'.tables[t]? = h.tables[t]? := hsame t (Nat.le_refl t) (by omega)
      refine ⟨heq, by rw [hown, hmeta], es, hes.of_same hown, ?_⟩
      exact BuiltForest.of_same hchildren fun r hle hlt => hsame r (by omega) (by omega)

theorem BuiltForest.of_same {h h' : Heap} {t u : Nat} : {f : Forest LuaVal ι Bool} →
    {es : List (LuaVal × LuaVal)} → BuiltForest leaves tag h t u f es →
    (∀ r, t ≤ r → r < t + f.nodes → h'.tables[r]? = h.tables[r]?) →
      BuiltForest leaves tag h' t u f es
  | .nil, _, hes, _ => hes
  | .cons key child rest, es, hes, hsame => by
      obtain ⟨v, es', heq, hchild, hrest⟩ := hes
      rw [Forest.nodes] at hsame
      refine ⟨v, es', heq, ?_, ?_⟩
      · exact Built.of_same hchild fun r hle hlt => hsame r hle (by omega)
      · exact BuiltForest.of_same hrest fun r hle hlt => hsame r (by omega) (by omega)

end

/-- The heap has grown by so many tables and these userdata, and of the old
tables only those listed have changed, none of them its metatable. -/
structure Grown (h h' : Heap) (changed : List Nat) (n : Nat) (objects : List Userdata) : Prop where
  tables : h'.tables.length = h.tables.length + n
  userdata : h'.userdata = h.userdata ++ objects
  same : ∀ r < h.tables.length, r ∉ changed → h'.tables[r]? = h.tables[r]?
  metatable : ∀ r < h.tables.length,
    (h'.tables[r]?).map LuaTable.metatable = (h.tables[r]?).map LuaTable.metatable

theorem Grown.trans {h₁ h₂ h₃ : Heap} {changed : List Nat} {n m : Nat} {xs ys : List Userdata}
    (g : Grown h₁ h₂ changed n xs) (g' : Grown h₂ h₃ changed m ys) :
    Grown h₁ h₃ changed (n + m) (xs ++ ys) where
  tables := by rw [g'.tables, g.tables]; omega
  userdata := by rw [g'.userdata, g.userdata, List.append_assoc]
  same := by
    intro r hr hno
    rw [g'.same r (by rw [g.tables]; omega) hno, g.same r hr hno]
  metatable := by
    intro r hr
    rw [g'.metatable r (by rw [g.tables]; omega), g.metatable r hr]

/-- The table of open tables lists them, and they are all there and distinct. -/
structure Ready (tree : Nat) (s : Build) : Prop where
  listed : s.heap.Holds tree (sequence (s.levels.reverse.map .table))
  apart : tree ∉ s.levels
  nodup : s.levels.Nodup
  bound : ∀ r ∈ s.levels, r < s.heap.tables.length

theorem Ready.tree_lt {s : Build} (r : Ready tree s) : tree < s.heap.tables.length := r.listed.bound

theorem Build.step_leaf_eq {s : Build} {cur : Nat} {outer : List Nat}
    (hlevels : s.levels = cur :: outer) (key : LuaVal) (a : ι) :
    Build.step leaves tag tree s (.leaf key a) = some { s with
      heap := { s.heap with userdata := s.heap.userdata ++ leaves.objects a }.assign cur key
        (leaves.value s.heap.userdata.length a) } := by
  unfold Build.step
  dsimp only
  split
  · rename_i heq
    rw [hlevels] at heq
    cases heq
    rfl
  · rename_i heq
    rw [hlevels] at heq
    cases heq

theorem Build.step_enter_eq {s : Build} {cur : Nat} {outer : List Nat}
    (hlevels : s.levels = cur :: outer) (key : LuaVal) (label : Bool) :
    Build.step leaves tag tree s (.enter key label) = some
      ⟨((s.heap.create (tag && label)).assign cur key (.table s.heap.tables.length)).assign tree
        (.index (s.levels.length + 1)) (.table s.heap.tables.length),
        s.heap.tables.length :: s.levels⟩ := by
  unfold Build.step
  dsimp only
  split
  · rename_i heq
    rw [hlevels] at heq
    cases heq
    rfl
  · rename_i heq
    rw [hlevels] at heq
    cases heq

theorem Ready.ne {s : Build} {cur : Nat} {outer : List Nat} (hready : Ready tree s)
    (hlevels : s.levels = cur :: outer) : cur ≠ tree := by
  rintro rfl
  exact hready.apart (by simp [hlevels])

theorem Ready.lt {s : Build} {cur : Nat} {outer : List Nat} (hready : Ready tree s)
    (hlevels : s.levels = cur :: outer) : cur < s.heap.tables.length :=
  hready.bound cur (by simp [hlevels])

/-- A field of an open table changes. -/
theorem Ready.assign {s : Build} {cur : Nat} {outer : List Nat} (hready : Ready tree s)
    (hlevels : s.levels = cur :: outer) {h : Heap} (htables : h.tables = s.heap.tables)
    (key value : LuaVal) : Ready tree { s with heap := h.assign cur key value } := by
  refine { hready with listed := ?_, bound := ?_ }
  · apply hready.listed.of_same
    rw [Heap.assign_ne _ _ _ (hready.ne hlevels), htables]
  · intro r hr
    simpa [htables] using hready.bound r hr

/-- A new table is open. -/
theorem Ready.push {s : Build} (hready : Ready tree s) {h : Heap}
    (hlen : h.tables.length = s.heap.tables.length + 1)
    (htree : h.tables[tree]? = s.heap.tables[tree]?) (hdeep : s.levels.length + 1 < 2 ^ 53) :
    Ready tree ⟨h.assign tree (.index (s.levels.length + 1)) (.table s.heap.tables.length),
      s.heap.tables.length :: s.levels⟩ := by
  have htreelt := hready.listed.bound
  constructor
  · have hlisted := hready.listed.of_same htree
    have hfresh := @index_not_mem_sequence (s.levels.reverse.map LuaVal.table) (by simpa using hdeep)
    have hpush := hlisted.assign (show LuaVal.table s.heap.tables.length ≠ .nil by simp) hfresh
    rw [← sequence_append] at hpush
    simpa using hpush
  · intro hmem
    rcases List.mem_cons.mp hmem with heq | hmem
    · omega
    · exact hready.apart hmem
  · refine List.nodup_cons.mpr ⟨?_, hready.nodup⟩
    intro hmem
    exact absurd (hready.bound _ hmem) (Nat.lt_irrefl _)
  · intro r hr
    rw [Heap.assign_tables_length, hlen]
    rcases List.mem_cons.mp hr with rfl | hr
    · exact Nat.lt_succ_self _
    · exact Nat.lt_succ_of_lt (hready.bound r hr)

/-- The innermost table is closed. -/
theorem Ready.pop {s : Build} {new cur : Nat} {outer : List Nat} (hready : Ready tree s)
    (hlevels : s.levels = new :: cur :: outer) (hdeep : s.levels.length < 2 ^ 53) :
    Ready tree ⟨s.heap.assign tree (.index s.levels.length) .nil, cur :: outer⟩ := by
  have hlisted := hready.listed
  have hfresh := @index_not_mem_sequence ((cur :: outer).reverse.map LuaVal.table)
    (by rw [hlevels] at hdeep; simpa using hdeep)
  rw [hlevels, List.reverse_cons, List.map_append, List.map_singleton, sequence_append] at hlisted
  have hclear := hlisted.clear hfresh
  constructor
  · have hlen : s.levels.length = ((cur :: outer).reverse.map LuaVal.table).length + 1 := by
      simp [hlevels]
    rw [hlen]
    exact hclear
  · intro hmem
    exact hready.apart (by rw [hlevels]; exact List.mem_cons_of_mem _ hmem)
  · have hnodup := hready.nodup
    rw [hlevels] at hnodup
    exact (List.nodup_cons.mp hnodup).2
  · intro r hr
    simpa using hready.bound r (by rw [hlevels]; exact List.mem_cons_of_mem _ hr)

/-- The parent of the innermost table, as it is found again in the list. -/
theorem Ready.fetch_parent {s : Build} {cur : Nat} {outer : List Nat} (hready : Ready tree s)
    (hlevels : s.levels = cur :: outer) (hdeep : s.levels.length < 2 ^ 53) :
    s.heap.fetch tree (.index s.levels.length) = .table cur := by
  have hlookup := @lookup_sequence (s.levels.reverse.map LuaVal.table) (by simpa using hdeep)
    outer.length (.table cur) (by simp [hlevels])
  have hlen : outer.length + 1 = s.levels.length := by rw [hlevels, List.length_cons]
  rw [hlen] at hlookup
  rw [Heap.fetch, hready.listed.fields, hlookup]
  rfl

/-- Every step keeps the table of open tables. -/
theorem Ready.step {s s' : Build} {e : Event LuaVal ι Bool} (hready : Ready tree s)
    (hdeep : s.levels.length + 1 < 2 ^ 53) (hstep : Build.step leaves tag tree s e = some s') :
    Ready tree s' := by
  cases hlevels : s.levels with
  | nil => cases e <;> simp [Build.step, hlevels] at hstep
  | cons cur outer =>
      cases e with
      | leaf key a =>
          rw [Build.step_leaf_eq hlevels] at hstep
          cases hstep
          refine hready.assign hlevels ?_ _ _
          rfl
      | enter key label =>
          rw [Build.step_enter_eq hlevels] at hstep
          cases hstep
          apply hready.push
          · simp [Heap.create]
          · rw [Heap.assign_ne _ _ _ (hready.ne hlevels), Heap.create_same _ _ hready.tree_lt]
          · exact hdeep
      | leave =>
          cases outer with
          | nil => simp [Build.step, hlevels] at hstep
          | cons parent outer =>
              simp only [Build.step, hlevels] at hstep
              cases hstep
              have hpop := hready.pop hlevels (by omega)
              rwa [hlevels] at hpop

/-- What a traversal of part of a tree leaves behind in the innermost open table. -/
structure Added (tree : Nat) (s s' : Build) (cur : Nat) (es new : List (LuaVal × LuaVal))
    (n : Nat) (objects : List Userdata) : Prop where
  levels : s'.levels = s.levels
  ready : Ready tree s'
  latest : s'.heap.Latest cur (es ++ new)
  grown : Grown s.heap s'.heap [cur, tree] n objects

variable (leaves tag) in
theorem step_leaf {s : Build} {cur : Nat} {outer : List Nat} {es : List (LuaVal × LuaVal)}
    (hlevels : s.levels = cur :: outer) (hready : Ready tree s) (hcur : s.heap.Latest cur es)
    (key : LuaVal) (a : ι) :
    ∃ s', Build.step leaves tag tree s (.leaf key a) = some s' ∧
      Added tree s s' cur es [(key, leaves.value s.heap.userdata.length a)] 0 (leaves.objects a) := by
  refine ⟨_, Build.step_leaf_eq hlevels key a, rfl, ?_, ?_, ?_⟩
  · refine hready.assign hlevels ?_ _ _
    rfl
  · exact Heap.Latest.assign (hcur.of_same rfl) (leaves.value_ne _ _)
  · refine ⟨by simp, by simp, ?_, ?_⟩
    · intro r _ hno
      exact Heap.assign_ne _ _ _ fun heq => hno (by simp [heq])
    · intro r _
      exact Heap.assign_metatable _ _ _ _ _

variable (leaves tag) in
theorem step_enter {s : Build} {cur : Nat} {outer : List Nat} {es : List (LuaVal × LuaVal)}
    (hlevels : s.levels = cur :: outer) (hready : Ready tree s) (hcur : s.heap.Latest cur es)
    (key : LuaVal) (label : Bool) (hdeep : s.levels.length + 1 < 2 ^ 53) :
    ∃ s', Build.step leaves tag tree s (.enter key label) = some s' ∧
      s'.levels = s.heap.tables.length :: s.levels ∧ Ready tree s' ∧
      s'.heap.Latest cur (es ++ [(key, .table s.heap.tables.length)]) ∧
      s'.heap.Latest s.heap.tables.length [] ∧
      (s'.heap.tables[s.heap.tables.length]?).map LuaTable.metatable = some (tag && label) ∧
      Grown s.heap s'.heap [cur, tree] 1 [] := by
  have hne : cur ≠ tree := hready.ne hlevels
  have hcurlt : cur < s.heap.tables.length := hready.lt hlevels
  have htreelt := hready.tree_lt
  set new := s.heap.tables.length with hnew
  set h₁ := s.heap.create (tag && label) with hh₁
  set h₂ := h₁.assign cur key (.table new) with hh₂
  set h₃ := h₂.assign tree (.index (s.levels.length + 1)) (.table new) with hh₃
  refine ⟨⟨h₃, new :: s.levels⟩, Build.step_enter_eq hlevels key label, rfl, ?_⟩
  have hcreate : h₁.tables.length = new + 1 := by simp [hh₁, Heap.create, hnew]
  have htree : h₂.tables[tree]? = s.heap.tables[tree]? := by
    rw [hh₂, Heap.assign_ne _ _ _ hne, hh₁, Heap.create_same _ _ htreelt]
  have hnewsame : h₃.tables[new]? = h₁.tables[new]? := by
    rw [hh₃, Heap.assign_ne _ _ _ (by omega), hh₂, Heap.assign_ne _ _ _ (by omega)]
  have hlen : h₃.tables.length = new + 1 := by
    rw [hh₃, Heap.assign_tables_length, hh₂, Heap.assign_tables_length, hcreate]
  refine ⟨?_, ?_, ?_, ?_, ?_⟩
  · apply hready.push _ htree hdeep
    rw [hh₂, Heap.assign_tables_length, hcreate, hnew]
  · have hset : h₂.Latest cur (es ++ [(key, .table new)]) :=
      (hcur.of_same (Heap.create_same _ _ hcurlt)).assign (by simp)
    exact hset.of_same (Heap.assign_ne _ _ _ (Ne.symm hne))
  · exact ((Heap.holds_create s.heap (tag && label)).of_same hnewsame).latest List.nodup_nil
  · change (h₃.tables[new]?).map LuaTable.metatable = _
    rw [hnewsame, hh₁, Heap.create, hnew]
    simp
  · refine ⟨by rw [hlen], by simp [hh₃, hh₂, hh₁, Heap.create], ?_, ?_⟩
    · intro r hr hno
      have hrcur : cur ≠ r := fun heq => hno (by simp [heq])
      have hrtree : tree ≠ r := fun heq => hno (by simp [heq])
      change h₃.tables[r]? = _
      rw [hh₃, Heap.assign_ne _ _ _ hrtree, hh₂, Heap.assign_ne _ _ _ hrcur, hh₁,
        Heap.create_same _ _ hr]
    · intro r hr
      change (h₃.tables[r]?).map LuaTable.metatable = _
      rw [hh₃, Heap.assign_metatable, hh₂, Heap.assign_metatable, hh₁, Heap.create_same _ _ hr]

variable (leaves tag) in
theorem step_leave {s : Build} {new cur : Nat} {outer : List Nat}
    (hlevels : s.levels = new :: cur :: outer) (hready : Ready tree s)
    (hdeep : s.levels.length < 2 ^ 53) :
    ∃ s', Build.step leaves tag tree s (.leave) = some s' ∧ s'.levels = cur :: outer ∧
      Ready tree s' ∧ s'.heap.userdata = s.heap.userdata ∧
      s'.heap.tables.length = s.heap.tables.length ∧
      (∀ r : Nat, r ≠ tree → s'.heap.tables[r]? = s.heap.tables[r]?) ∧
      ∀ r : Nat, (s'.heap.tables[r]?).map LuaTable.metatable =
        (s.heap.tables[r]?).map LuaTable.metatable := by
  refine ⟨⟨s.heap.assign tree (.index s.levels.length) .nil, cur :: outer⟩,
    by simp only [Build.step, hlevels], rfl, ?_, rfl, by simp, ?_, ?_⟩
  · exact hready.pop hlevels hdeep
  · exact fun r hne => Heap.assign_ne _ _ _ (Ne.symm hne)
  · exact fun r => Heap.assign_metatable _ _ _ _ _

/-- The numbers a tree takes up among the userdata. -/
def objectsOf (leaves : Leaves ι) (x : Tree LuaVal ι Bool) : List Userdata :=
  x.leaves.flatMap leaves.objects

mutual

/-- The events of a tree set one field of the innermost open table, and the
value built for the tree is in it. -/
theorem add_tree : (x : Tree LuaVal ι Bool) → {s : Build} → {cur : Nat} → {outer : List Nat} →
    {es : List (LuaVal × LuaVal)} → {key : LuaVal} → s.levels = cur :: outer → Ready tree s →
    s.heap.Latest cur es → s.levels.length + x.depth < 2 ^ 53 →
    ∃ s' v, Build.run leaves tag tree (x.events key) s = some s' ∧
      Built leaves tag s'.heap s.heap.tables.length s.heap.userdata.length x v ∧
      Added tree s s' cur es [(key, v)] x.nodes (objectsOf leaves x)
  | .leaf a, s, cur, outer, es, key, hlevels, hready, hcur, _ => by
      obtain ⟨s', hstep, hadded⟩ := step_leaf leaves tag hlevels hready hcur key a
      refine ⟨s', _, ?_, rfl, ?_⟩
      · rw [Tree.events, Build.run, List.foldlM_cons, hstep]
        rfl
      · simpa [objectsOf, Tree.leaves, Tree.nodes] using hadded
  | .node label children, s, cur, outer, es, key, hlevels, hready, hcur, hdeep => by
      rw [Tree.depth] at hdeep
      obtain ⟨s₁, hstep, hlevels₁, hready₁, hcur₁, hnew₁, hmeta₁, hgrown₁⟩ :=
        step_enter leaves tag hlevels hready hcur key label (by omega)
      obtain ⟨s₂, fields, hrun, hfields, hadded⟩ :=
        add_forest children hlevels₁ hready₁ hnew₁ (by rw [hlevels₁, List.length_cons]; omega)
      have hlevels₂ : s₂.levels = s.heap.tables.length :: cur :: outer := by
        rw [hadded.levels, hlevels₁, hlevels]
      obtain ⟨s₃, hleave, hlevels₃, hready₃, huserdata₃, htables₃, hsame₃, hmeta₃⟩ :=
        step_leave leaves tag hlevels₂ hadded.ready
          (by rw [hadded.levels, hlevels₁, List.length_cons]; omega)
      have hcurlt : cur < s.heap.tables.length := hready.lt hlevels
      have htreelt := hready.tree_lt
      have hne : cur ≠ tree := hready.ne hlevels
      have hlen₁ := hgrown₁.tables
      have huser₁ := hgrown₁.userdata
      rw [List.append_nil] at huser₁
      have hgrown₂ := hadded.grown
      rw [hlen₁, huser₁] at hfields
      refine ⟨s₃, .table s.heap.tables.length, ?_, ⟨rfl, ?_, fields, ?_, ?_⟩, ?_, hready₃, ?_, ?_⟩
      · rw [Tree.events, ← List.singleton_append, Build.run_append]
        have hfirst : Build.run leaves tag tree [.enter key label] s = some s₁ := by
          rw [Build.run, List.foldlM_cons, hstep]
          rfl
        have hlast : Build.run leaves tag tree [.leave] s₂ = some s₃ := by
          rw [Build.run, List.foldlM_cons, hleave]
          rfl
        rw [hfirst, Option.bind_some, Build.run_append, hrun, Option.bind_some, hlast]
      · rw [hmeta₃, hgrown₂.metatable _ (by omega), hmeta₁]
      · have hheld := hadded.latest
        rw [List.nil_append] at hheld
        exact hheld.of_same (hsame₃ _ (by omega))
      · apply hfields.of_same
        intro r hle _
        exact hsame₃ r (by omega)
      · rw [hlevels₃, hlevels]
      · apply hcur₁.of_same
        rw [hsame₃ _ hne, hgrown₂.same _ (by omega)]
        simp only [List.mem_cons, List.not_mem_nil, or_false, not_or]
        exact ⟨by omega, hne⟩
      · refine ⟨?_, ?_, ?_, ?_⟩
        · rw [htables₃, hgrown₂.tables, hlen₁, Tree.nodes]
          omega
        · rw [huserdata₃, hgrown₂.userdata, huser₁]
          rfl
        · intro r hr hno
          have hrtree : r ≠ tree := fun heq => hno (by simp [heq])
          rw [hsame₃ r hrtree, hgrown₂.same r (by omega), hgrown₁.same r hr hno]
          simp only [List.mem_cons, List.not_mem_nil, or_false, not_or]
          exact ⟨by omega, hrtree⟩
        · intro r hr
          rw [hmeta₃, hgrown₂.metatable r (by omega), hgrown₁.metatable r hr]

theorem add_forest : (f : Forest LuaVal ι Bool) → {s : Build} → {cur : Nat} → {outer : List Nat} →
    {es : List (LuaVal × LuaVal)} → s.levels = cur :: outer → Ready tree s →
    s.heap.Latest cur es → s.levels.length + f.depth < 2 ^ 53 →
    ∃ s' new, Build.run leaves tag tree f.events s = some s' ∧
      BuiltForest leaves tag s'.heap s.heap.tables.length s.heap.userdata.length f new ∧
      Added tree s s' cur es new f.nodes (f.leaves.flatMap leaves.objects)
  | .nil, s, cur, outer, es, hlevels, hready, hcur, _ => by
      refine ⟨s, [], rfl, rfl, rfl, hready, by simpa using hcur, ?_⟩
      exact ⟨rfl, by simp [Forest.leaves], fun _ _ _ => rfl, fun _ _ => rfl⟩
  | .cons key child rest, s, cur, outer, es, hlevels, hready, hcur, hdeep => by
      rw [Forest.depth] at hdeep
      obtain ⟨s₁, v, hrun₁, hchild, hadded₁⟩ := @add_tree child s cur outer es key hlevels hready hcur (by omega)
      obtain ⟨s₂, new, hrun₂, hrest, hadded₂⟩ := add_forest rest
        (hadded₁.levels.trans hlevels) hadded₁.ready hadded₁.latest (by rw [hadded₁.levels]; omega)
      have hgrown₁ := hadded₁.grown
      have hgrown₂ := hadded₂.grown
      have hcurlt : cur < s.heap.tables.length := hready.lt hlevels
      have htreelt := hready.tree_lt
      refine ⟨s₂, (key, v) :: new, ?_, ⟨v, new, rfl, ?_, ?_⟩, ?_⟩
      · rw [Forest.events, Build.run_append, hrun₁, Option.bind_some, hrun₂]
      · apply hchild.of_same
        intro r hle hlt
        apply hgrown₂.same r (by rw [hgrown₁.tables]; omega)
        simp only [List.mem_cons, List.not_mem_nil, or_false, not_or]
        omega
      · rw [hgrown₁.tables, hgrown₁.userdata, List.length_append] at hrest
        exact hrest
      · refine ⟨hadded₂.levels.trans hadded₁.levels, hadded₂.ready, ?_, ?_⟩
        · simpa [List.append_assoc] using hadded₂.latest
        · have hboth := hgrown₁.trans hgrown₂
          simpa [objectsOf, Forest.leaves, Forest.nodes, List.flatMap_append] using hboth

end

/-- A traversal in which no key comes again. -/
structure Filled (tree : Nat) (s s' : Build) (cur : Nat) (es new : List (LuaVal × LuaVal))
    (n : Nat) (objects : List Userdata) : Prop where
  levels : s'.levels = s.levels
  ready : Ready tree s'
  holds : s'.heap.Holds cur (es ++ new)
  grown : Grown s.heap s'.heap [cur, tree] n objects

theorem run_forest (f : Forest LuaVal ι Bool) {s : Build} {cur : Nat} {outer : List Nat}
    {es : List (LuaVal × LuaVal)} (hlevels : s.levels = cur :: outer) (hready : Ready tree s)
    (hcur : s.heap.Holds cur es) (hkeys : (es.map Prod.fst ++ f.keys).Nodup) (hunique : f.Unique)
    (hdeep : s.levels.length + f.depth < 2 ^ 53) :
    ∃ s' new, Build.run leaves tag tree f.events s = some s' ∧
      DenotesForest leaves tag s'.heap s.heap.tables.length s.heap.userdata.length f new ∧
      new.map Prod.fst = f.keys ∧
      Filled tree s s' cur es new f.nodes (f.leaves.flatMap leaves.objects) := by
  obtain ⟨s', new, hrun, hbuilt, hadded⟩ :=
    @add_forest ι leaves tag tree f s cur outer es hlevels hready (hcur.latest (List.nodup_append.mp hkeys).1) hdeep
  have hnodup : ((es ++ new).map Prod.fst).Nodup := by rwa [List.map_append, hbuilt.keys]
  exact ⟨s', new, hrun, hbuilt.denotes hunique, hbuilt.keys, hadded.levels, hadded.ready,
    hadded.latest.holds hnodup, hadded.grown⟩

/-- The heap once the list of open tables and the root are there. -/
def opened (h : Heap) (label : Bool) : Heap :=
  ((h.create false).create label).assign h.tables.length (.index 1) (.table (h.tables.length + 1))

theorem opened_ready (h : Heap) (label : Bool) :
    Ready h.tables.length ⟨opened h label, [h.tables.length + 1]⟩ ∧
      (opened h label).Holds (h.tables.length + 1) [] ∧ (opened h label).tables.length = h.tables.length + 2 := by
  have hlen : (h.create false).tables.length = h.tables.length + 1 := by simp [Heap.create]
  have hlist : ((h.create false).create label).Holds h.tables.length [] :=
    (h.holds_create false).of_same (Heap.create_same _ _ (by rw [hlen]; exact Nat.lt_succ_self _))
  have hroot := (h.create false).holds_create label
  rw [hlen] at hroot
  have htables : (opened h label).tables.length = h.tables.length + 2 := by
    rw [opened, Heap.assign_tables_length]
    simp [Heap.create]
  refine ⟨⟨?_, by simp, by simp, ?_⟩, ?_, htables⟩
  · exact hlist.assign (by simp) (by simp)
  · intro r hr
    rw [List.mem_singleton.mp hr]
    show h.tables.length + 1 < (opened h label).tables.length
    omega
  · exact hroot.of_same (Heap.assign_ne _ _ _ (Nat.ne_of_lt (Nat.lt_succ_self _)))

theorem opened_metatable (h : Heap) (label : Bool) :
    ((opened h label).tables[h.tables.length + 1]?).map LuaTable.metatable = some label := by
  simp [opened, Heap.assign, Heap.create]

theorem opened_same (h : Heap) (label : Bool) {r : Nat} (hr : r < h.tables.length) :
    (opened h label).tables[r]? = h.tables[r]? := by
  rw [opened, Heap.assign_ne _ _ _ (Nat.ne_of_gt hr), Heap.create_same _ _ (by simp [Heap.create]; omega), Heap.create_same _ _ hr]

end Builder

end Emilua
