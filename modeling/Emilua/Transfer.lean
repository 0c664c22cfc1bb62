import Emilua.Deserializer
import Emilua.Serializing

/-!
Tables sent through a channel: what the receiver rebuilds mirrors what was sent.
-/
namespace Emilua
open Wire Keyed

/-! What the recursion makes of one table. -/

section
variable (env : SenderEnv) (g : Heap)

def SenderEnv.sendable (v : LuaVal) : Bool :=
  match env.item g v with
  | .unsendable | .cdata => false
  | .leaf _ | .descriptor _ | .table _ => true

/-- The elements of an array. -/
def SenderEnv.cut (t : Nat) : List LuaVal := (Json.ipairs (Json.table g t)).takeWhile (env.sendable g)

def SenderEnv.member : LuaVal × LuaVal → Option (Bytes × LuaVal)
  | (.string k, v) => if env.sendable g v then some (k, v) else none
  | _ => none

/-- The members of an object. -/
def SenderEnv.kept (fs : List (LuaVal × LuaVal)) : List (Bytes × LuaVal) := fs.filterMap (env.member g)

/-- The containers that table `t` can become, of values that `P` relates to what they become. -/
inductive Becomes (P : LuaVal → Value → Prop) (t : Nat) : Value → Prop where
  | array {a : List Value} (hlen : 0 < env.objlen t) (ha : List.Forall₂ P (env.cut g t) a) : Becomes P t (.array a)
  | object {m : List (Bytes × Value)} (hlen : ¬ 0 < env.objlen t) (hnodup : (m.map Prod.fst).Nodup)
      (hkeys : ∀ k, m.lookup k = none ↔ (env.kept g (Json.table g t).pairs).lookup k = none)
      (hm : ∀ k x v, (env.kept g (Json.table g t).pairs).lookup k = some x → m.lookup k = some v → P x v) :
      Becomes P t (.object m)

end

section
variable {env : SenderEnv} {g : Heap} {strict : Bool} {recur : List Nat → Nat → Nat → Except Halt (Value × Nat)}
  {path : List Nat} {P : LuaVal → Value → Prop}

/-- What is left out is what cannot be sent. -/
theorem child_sendable {w : LuaVal} {dups dups' : Nat} {r : Option Value}
    (h : child env g strict recur path dups w = .ok (r, dups')) : r.isSome = env.sendable g w := by
  rw [child] at h
  rw [SenderEnv.sendable]
  cases hitem : env.item g w with
  | leaf x =>
      rw [hitem] at h
      cases h
      rfl
  | descriptor fd =>
      simp only [hitem] at h
      cases hdup : env.dup dups fd with
      | ok newfd =>
          rw [hdup] at h
          cases h
          rfl
      | error errno =>
          rw [hdup] at h
          cases h
  | table t =>
      simp only [hitem] at h
      split at h
      · cases h
      · obtain ⟨b, -, heq⟩ := Ancestors.map_ok h
        cases heq
        rfl
  | unsendable =>
      rw [hitem] at h
      cases h
      rfl
  | cdata =>
      simp only [hitem] at h
      split at h
      · cases h
      · cases h
        rfl

/-- A value that is sent is a leaf, a duplicated descriptor or a table. -/
theorem child_ok {w : LuaVal} {dups dups' : Nat} {x : Value} (h : child env g strict recur path dups w = .ok (some x, dups')) :
    (env.item g w = .leaf x ∧ dups' = dups) ∨
      (∃ fd newfd, env.item g w = .descriptor fd ∧ env.dup dups fd = .ok newfd ∧ x = .fileDescriptor newfd ∧ dups' = dups + 1) ∨
      ∃ c, w = .table c ∧ (Json.table g c).metatable = false ∧ c ∉ path ∧ recur path dups c = .ok (x, dups') := by
  rw [child] at h
  cases hitem : env.item g w with
  | leaf x' =>
      rw [hitem] at h
      cases h
      exact .inl ⟨rfl, rfl⟩
  | descriptor fd =>
      simp only [hitem] at h
      cases hdup : env.dup dups fd with
      | ok newfd =>
          rw [hdup] at h
          cases h
          exact .inr (.inl ⟨fd, newfd, rfl, hdup, rfl, rfl⟩)
      | error errno =>
          rw [hdup] at h
          cases h
  | table c =>
      simp only [hitem] at h
      obtain rfl := item_table hitem
      have hmeta : (Json.table g c).metatable = false := by
        rw [SenderEnv.item] at hitem
        split at hitem
        · cases hitem
        · rename_i hno
          simpa using hno
      split at h
      · cases h
      · rename_i hpath
        obtain ⟨⟨v', dups₁⟩, hr, heq⟩ := Ancestors.map_ok h
        cases heq
        exact .inr (.inr ⟨c, rfl, hmeta, hpath, hr⟩)
  | unsendable =>
      rw [hitem] at h
      cases h
  | cdata =>
      simp only [hitem] at h
      split at h <;> cases h

theorem kept_cons {k : Bytes} {w : LuaVal} {fs : List (LuaVal × LuaVal)} :
    env.kept g ((.string k, w) :: fs) = if env.sendable g w then (k, w) :: env.kept g fs else env.kept g fs := by
  rw [SenderEnv.kept, List.filterMap_cons, SenderEnv.member]
  cases hsend : env.sendable g w <;> rfl

theorem kept_skip {k w : LuaVal} {fs : List (LuaVal × LuaVal)} (hk : ∀ str, k ≠ .string str) :
    env.kept g ((k, w) :: fs) = env.kept g fs := by
  rw [SenderEnv.kept, List.filterMap_cons]
  cases k with
  | string str => exact absurd rfl (hk str)
  | _ => rfl

theorem mem_kept {k : Bytes} {w : LuaVal} {fs : List (LuaVal × LuaVal)} (h : (k, w) ∈ env.kept g fs) :
    (LuaVal.string k, w) ∈ fs ∧ env.sendable g w = true := by
  obtain ⟨⟨key, w'⟩, hin, hmember⟩ := List.mem_filterMap.mp h
  cases key with
  | string str =>
      rw [SenderEnv.member] at hmember
      split at hmember
      · rename_i hsend
        cases hmember
        exact ⟨hin, hsend⟩
      · cases hmember
  | _ => cases hmember

theorem mem_of_lookup {β : Type} {m : List (Bytes × β)} {k : Bytes} {v : β} (h : m.lookup k = some v) : (k, v) ∈ m := by
  induction m with
  | nil => cases h
  | cons e m ih =>
      obtain ⟨k', v'⟩ := e
      rw [lookup_cons_eq] at h
      split at h
      · rename_i heq
        cases h
        rw [heq]
        exact List.mem_cons_self
      · exact List.mem_cons_of_mem _ (ih h)

theorem emplace_nodup {m : List (Bytes × Value)} {k : Bytes} (hm : (m.map Prod.fst).Nodup) (x : Value) :
    ((emplace m k x).map Prod.fst).Nodup := by
  rw [emplace]
  split
  · exact hm
  · rename_i hnew
    have hperm : ((insertKey m k x).map Prod.fst).Perm (k :: m.map Prod.fst) := (insertKey_perm m k x).map _
    refine hperm.nodup_iff.mpr (List.nodup_cons.mpr ⟨fun hin => ?_, hm⟩)
    obtain ⟨e, he, heq⟩ := List.mem_map.mp hin
    exact fresh_key (Option.not_isSome_iff_eq_none.mp hnew) e he heq

variable (hP : ∀ w x dups dups', child env g strict recur path dups w = .ok (some x, dups') → P w x)
include hP

theorem elements_become {vs : List LuaVal} {a : List Value} {dups dups' : Nat} {v : Value}
    (h : elements env g strict recur path vs a dups = .ok (v, dups')) :
    ∃ a', v = .array (a ++ a') ∧ List.Forall₂ P (vs.takeWhile (env.sendable g)) a' := by
  induction vs generalizing a dups with
  | nil =>
      cases h
      exact ⟨[], by rw [List.append_nil], .nil⟩
  | cons w vs ih =>
      rw [elements] at h
      obtain ⟨⟨r, dups₁⟩, hw, hrest⟩ := Ancestors.bind_ok h
      cases r with
      | none =>
          have hsend : env.sendable g w = false := (child_sendable hw).symm
          cases hrest
          refine ⟨[], by rw [List.append_nil], ?_⟩
          rw [List.takeWhile_cons, hsend, if_neg Bool.false_ne_true]
          exact .nil
      | some x =>
          have hsend : env.sendable g w = true := (child_sendable hw).symm
          obtain ⟨a', rfl, ha'⟩ := ih hrest
          refine ⟨x :: a', by rw [List.append_assoc, List.singleton_append], ?_⟩
          rw [List.takeWhile_cons, hsend, if_pos rfl]
          exact .cons (hP w x _ _ hw) ha'

theorem members_become {fs : List (LuaVal × LuaVal)} {m : List (Bytes × Value)} {dups dups' : Nat} {v : Value}
    (hfs : (fs.map Prod.fst).Nodup) (hnew : ∀ k w, (LuaVal.string k, w) ∈ fs → m.lookup k = none)
    (hm : (m.map Prod.fst).Nodup) (h : members env g strict recur path fs m dups = .ok (v, dups')) :
    ∃ m', v = .object m' ∧ (m'.map Prod.fst).Nodup ∧
      (∀ k, m'.lookup k = none ↔ m.lookup k = none ∧ (env.kept g fs).lookup k = none) ∧
      ∀ k v', m'.lookup k = some v' → m.lookup k = some v' ∨ ∃ x, (env.kept g fs).lookup k = some x ∧ P x v' := by
  induction fs generalizing m dups with
  | nil =>
      cases h
      exact ⟨m, rfl, hm, fun k => ⟨fun hk => ⟨hk, rfl⟩, And.left⟩, fun k v' hv => .inl hv⟩
  | cons f fs ih =>
      obtain ⟨key, w⟩ := f
      rw [List.map_cons, List.nodup_cons] at hfs
      have hrest : ∀ k' w', (LuaVal.string k', w') ∈ fs → m.lookup k' = none :=
        fun k' w' hin => hnew k' w' (List.mem_cons_of_mem _ hin)
      cases key with
      | string k =>
          rw [members] at h
          obtain ⟨⟨r, dups₁⟩, hw, hmembers⟩ := Ancestors.bind_ok h
          cases r with
          | none =>
              have hsend : env.sendable g w = false := (child_sendable hw).symm
              rw [kept_cons, hsend, if_neg Bool.false_ne_true]
              exact ih hfs.2 hrest hm hmembers
          | some x =>
              have hsend : env.sendable g w = true := (child_sendable hw).symm
              have hfree := hnew k w List.mem_cons_self
              have hother : ∀ k' w', (LuaVal.string k', w') ∈ fs → k' ≠ k := by
                rintro k' w' hin rfl
                exact hfs.1 (List.mem_map.mpr ⟨_, hin, rfl⟩)
              obtain ⟨m', rfl, hm', hkeys, hvalues⟩ := ih hfs.2 (fun k' w' hin => by
                rw [lookup_emplace, hrest k' w' hin, if_neg (hother k' w' hin)]
                rfl) (emplace_nodup hm x) hmembers
              refine ⟨m', rfl, hm', fun k' => ?_, fun k' v' hv' => ?_⟩
              · rw [hkeys, kept_cons, hsend, if_pos rfl, lookup_emplace, lookup_cons_eq]
                by_cases hk : k' = k
                · subst hk
                  simp [hfree]
                · simp [hk]
              · rw [kept_cons, hsend, if_pos rfl, lookup_cons_eq]
                rcases hvalues k' v' hv' with hold | ⟨y, hy, hPy⟩
                · rw [lookup_emplace] at hold
                  by_cases hk : k' = k
                  · subst hk
                    rw [hfree, if_pos rfl] at hold
                    cases hold
                    exact .inr ⟨w, if_pos rfl, hP w x _ _ hw⟩
                  · rw [if_neg hk, Option.or_none] at hold
                    exact .inl hold
                · rw [if_neg (hother k' y ((mem_kept (mem_of_lookup hy)).1))]
                  exact .inr ⟨y, hy, hPy⟩
      | _ =>
          rw [kept_skip (by simp)]
          rw [members] at h
          · exact ih hfs.2 hrest hm h
          · simp

omit hP in
theorem contents_become {dups dups' t : Nat} {v : Value}
    (hP : ∀ w x dups dups', child env g strict recur (t :: path) dups w = .ok (some x, dups') → P w x)
    (h : contents env g strict recur path dups t = .ok (v, dups')) : Becomes env g P t v := by
  rw [contents] at h
  by_cases hlen : 0 < env.objlen t
  · rw [if_pos hlen] at h
    obtain ⟨a, rfl, ha⟩ := elements_become hP h
    rw [List.nil_append]
    exact .array hlen ha
  · rw [if_neg hlen] at h
    obtain ⟨m, rfl, hm, hkeys, hvalues⟩ := members_become hP (pairs_nodup _) (fun _ _ _ => rfl) (m := []) List.nodup_nil h
    refine .object hlen hm (fun k => (hkeys k).trans (and_iff_right rfl)) fun k x v hx hv => ?_
    rcases hvalues k v hv with hnone | ⟨y, hy, hPy⟩
    · cases hnone
    · rw [hx] at hy
      cases hy
      exact hPy

omit hP in
/-- A relation that every step of the recursion keeps holds of the message. -/
theorem message_becomes (hleaf : ∀ w x, env.item g w = .leaf x → P w x)
    (hdescriptor : ∀ w fd n newfd, env.item g w = .descriptor fd → env.dup n fd = .ok newfd → P w (.fileDescriptor newfd))
    (htable : ∀ t v, (Json.table g t).metatable = false → Becomes env g P t v → P (.table t) v)
    {room : Nat} {path : List Nat} {dups dups' t : Nat} {v : Value}
    (h : message env g strict room path dups t = .ok (v, dups')) : Becomes env g P t v := by
  have hchild : ∀ {recur : List Nat → Nat → Nat → Except Halt (Value × Nat)}
      (_ : ∀ path dups dups' t v, recur path dups t = .ok (v, dups') → Becomes env g P t v) (path : List Nat),
      ∀ w x dups dups', child env g strict recur path dups w = .ok (some x, dups') → P w x := by
    intro recur hrec path w x dups dups' hw
    rcases child_ok hw with ⟨hitem, -⟩ | ⟨fd, newfd, hitem, hdup, rfl, -⟩ | ⟨c, rfl, hmeta, -, hr⟩
    · exact hleaf w x hitem
    · exact hdescriptor w fd dups newfd hitem hdup
    · exact htable c x hmeta (hrec path dups dups' c x hr)
  induction room generalizing path dups dups' t v with
  | zero => exact contents_become (hchild (fun _ _ _ _ _ hr => by cases hr) _) h
  | succ room ih => exact contents_become (hchild (fun _ _ _ _ _ hr => ih hr) _) h

end

/-! What a message is sound for. -/

section
variable {env : SenderEnv} {g : Graph}

theorem forall₂_soundArray {P : LuaVal → Value → Prop} (hP : ∀ w v, P w v → v.Sound) {ws : List LuaVal} {a : List Value}
    (h : List.Forall₂ P ws a) : soundArray a := by
  induction h with
  | nil => trivial
  | cons hw _ ih => exact ⟨hP _ _ hw, ih⟩

theorem soundObject_of {m : List (Bytes × Value)} (hm : ∀ e ∈ m, e.2.Sound) : soundObject m := by
  induction m with
  | nil => trivial
  | cons e m ih => exact ⟨hm e List.mem_cons_self, ih fun e' he' => hm e' (List.mem_cons_of_mem _ he')⟩

theorem cut_length (env : SenderEnv) (g : Graph) (t : Nat) : (env.cut g.heap t).length ≤ intMax := by
  have hfew := fields_small g t
  have htake : (env.cut g.heap t).length ≤ (Json.ipairs (Json.table g.heap t)).length := (List.takeWhile_prefix _).length_le
  have hall := ipairsFrom_length (Json.table g.heap t) (Json.table g.heap t).fields.entries.length 1
  exact htake.trans (hall.trans hfew.le)

theorem lookup_of_mem {β : Type} {m : List (Bytes × β)} (hm : (m.map Prod.fst).Nodup) {e : Bytes × β} (he : e ∈ m) :
    m.lookup e.1 = some e.2 := by
  induction m with
  | nil => cases he
  | cons e' m ih =>
      obtain ⟨k, v⟩ := e'
      rw [List.map_cons, List.nodup_cons] at hm
      rw [lookup_cons_eq]
      rcases List.mem_cons.mp he with rfl | he
      · exact if_pos rfl
      · have hne : e.1 ≠ k := fun heq => hm.1 (List.mem_map.mpr ⟨e, he, heq⟩)
        rw [if_neg hne, ih hm.2 he]

theorem Becomes.of_mem {g : Heap} {P : LuaVal → Value → Prop} {t : Nat} {m : List (Bytes × Value)}
    (h : Becomes env g P t (.object m)) {e : Bytes × Value} (he : e ∈ m) :
    ∃ x, (env.kept g (Json.table g t).pairs).lookup e.1 = some x ∧ P x e.2 := by
  cases h with
  | object hlen hnodup hkeys hm =>
      have hv := lookup_of_mem hnodup he
      cases hx : (env.kept g (Json.table g t).pairs).lookup e.1 with
      | none =>
          rw [(hkeys e.1).mpr hx] at hv
          cases hv
      | some x => exact ⟨x, rfl, hm e.1 x e.2 hx hv⟩

theorem becomes_sound {t : Nat} {v : Value} (h : Becomes env g.heap (fun _ v => v.Sound) t v) : v.Sound := by
  have hcopy := h
  cases h with
  | array hlen ha =>
      refine ⟨?_, forall₂_soundArray (fun _ _ hv => hv) ha⟩
      rw [← ha.length_eq]
      exact cut_length env g t
  | object hlen hnodup hkeys hm =>
      refine ⟨hnodup, soundObject_of fun e he => ?_⟩
      obtain ⟨x, -, hsound⟩ := hcopy.of_mem he
      exact hsound

theorem item_leaf {g : Heap} {w : LuaVal} {x : Value} (h : env.item g w = .leaf x) : ∃ l : Leaf, x = l.toValue := by
  cases w with
  | boolean b =>
      cases h
      exact ⟨.boolean b, rfl⟩
  | number bits =>
      cases h
      exact ⟨.number bits, rfl⟩
  | string str =>
      cases h
      exact ⟨.string str, rfl⟩
  | userdata ref =>
      rw [SenderEnv.item] at h
      split at h
      · cases h
        exact ⟨.txChan _, rfl⟩
      · cases h
        exact ⟨.txChan (some env.self), rfl⟩
      · split at h <;> cases h
      · cases h
  | table t =>
      rw [SenderEnv.item] at h
      split at h <;> cases h
  | _ => cases h

theorem Leaf.sound_toValue (l : Leaf) : l.toValue.Sound := by cases l <;> trivial

/-- A message is never more than the receiver can rebuild. -/
theorem message_sound {strict : Bool} {room dups dups' t : Nat} {path : List Nat} {v : Value}
    (h : message env g.heap strict room path dups t = .ok (v, dups')) : v.Sound := by
  refine becomes_sound (message_becomes (P := fun _ v => v.Sound) ?_ (fun _ _ _ _ _ _ => trivial)
    (fun t v _ hv => becomes_sound hv) h)
  intro w x hitem
  obtain ⟨l, rfl⟩ := item_leaf hitem
  exact l.sound_toValue

theorem forall₂_depth {P : LuaVal → Value → Prop} {d : Nat} (hP : ∀ w v, P w v → v.tree.depth ≤ d) {ws : List LuaVal} {a : List Value}
    (h : List.Forall₂ P ws a) (i : Nat) : (treeArray i a).depth ≤ d := by
  induction h generalizing i with
  | nil => exact Nat.zero_le _
  | cons hw _ ih => exact Nat.max_le.mpr ⟨hP _ _ hw, ih (i + 1)⟩

theorem depth_treeObject {d : Nat} {m : List (Bytes × Value)} (hm : ∀ e ∈ m, e.2.tree.depth ≤ d) : (treeObject m).depth ≤ d := by
  induction m with
  | nil => exact Nat.zero_le _
  | cons e m ih =>
      exact Nat.max_le.mpr ⟨hm e List.mem_cons_self, ih fun e' he' => hm e' (List.mem_cons_of_mem _ he')⟩

theorem becomes_depth {g : Heap} {d t : Nat} {v : Value} (h : Becomes env g (fun _ v => v.tree.depth ≤ d) t v) :
    v.tree.depth ≤ d + 1 := by
  have hcopy := h
  cases h with
  | array hlen ha => exact Nat.succ_le_succ (forall₂_depth (fun _ _ hv => hv) ha 0)
  | object hlen hnodup hkeys hm =>
      refine Nat.succ_le_succ (depth_treeObject fun e he => ?_)
      obtain ⟨x, -, hdepth⟩ := hcopy.of_mem he
      exact hdepth

theorem child_depth {g : Heap} {strict : Bool} {recur : List Nat → Nat → Nat → Except Halt (Value × Nat)} {path : List Nat} {d : Nat}
    (hrec : ∀ path dups dups' t v, recur path dups t = .ok (v, dups') → v.tree.depth ≤ d) {w : LuaVal} {x : Value} {dups dups' : Nat}
    (h : child env g strict recur path dups w = .ok (some x, dups')) : x.tree.depth ≤ d := by
  rcases child_ok h with ⟨hitem, -⟩ | ⟨fd, newfd, hitem, hdup, rfl, -⟩ | ⟨c, rfl, hmeta, -, hr⟩
  · obtain ⟨l, rfl⟩ := item_leaf hitem
    rw [Leaf.tree_toValue]
    exact Nat.zero_le _
  · exact Nat.zero_le _
  · exact hrec path dups dups' c x hr

theorem message_depth {g : Heap} {strict : Bool} {room dups dups' t : Nat} {path : List Nat} {v : Value}
    (h : message env g strict room path dups t = .ok (v, dups')) : v.tree.depth ≤ room + 1 := by
  induction room generalizing path dups dups' t v with
  | zero => exact becomes_depth (contents_become (fun _ _ _ _ hw => child_depth (fun _ _ _ _ _ hr => by cases hr) hw) h)
  | succ room ih => exact becomes_depth (contents_become (fun _ _ _ _ hw => child_depth (fun _ _ _ _ _ hr => ih hr) hw) h)

end

/-! What the receiver has. -/

/-- The value `y` of the receiver is what the value `w` of the sender becomes. -/
inductive Mirrors (env : SenderEnv) (g h : Heap) : LuaVal → LuaVal → Prop where
  | leaf {w y l} (hitem : env.item g w = .leaf l.toValue) (hy : h.leaf y = some l) : Mirrors env g h w y
  | descriptor {w y fd n newfd} (hitem : env.item g w = .descriptor fd) (hdup : env.dup n fd = .ok newfd)
      (hy : h.leaf y = some (.fileDescriptor newfd)) : Mirrors env g h w y
  | array {t r ys} (hsent : (Json.table g t).metatable = false) (hlen : 0 < env.objlen t)
      (hplain : (h.tables[r]?).map LuaTable.metatable = some false) (hholds : h.Holds r (sequence ys))
      (hys : List.Forall₂ (Mirrors env g h) (env.cut g t) ys) : Mirrors env g h (.table t) (.table r)
  | object {t r} (hsent : (Json.table g t).metatable = false) (hlen : ¬ 0 < env.objlen t)
      (hplain : (h.tables[r]?).map LuaTable.metatable = some false)
      (hkeys : ∀ key, h.rawget r key ≠ none ↔ ∃ k w, key = .string k ∧ (env.kept g (Json.table g t).pairs).lookup k = some w)
      (hvalues : ∀ k w y, (env.kept g (Json.table g t).pairs).lookup k = some w → h.rawget r (.string k) = some y →
        Mirrors env g h w y) : Mirrors env g h (.table t) (.table r)

/-- The userdata from `u` on are these. -/
def UserdataAt (h : Heap) (u : Nat) (objs : List Userdata) : Prop :=
  ∃ pre post, h.userdata = pre ++ (objs ++ post) ∧ pre.length = u

theorem UserdataAt.left {h : Heap} {u : Nat} {objs objs' : List Userdata} (ha : UserdataAt h u (objs ++ objs')) :
    UserdataAt h u objs := by
  obtain ⟨pre, post, heq, hlen⟩ := ha
  exact ⟨pre, objs' ++ post, by rw [heq, List.append_assoc], hlen⟩

theorem UserdataAt.right {h : Heap} {u : Nat} {objs objs' : List Userdata} (ha : UserdataAt h u (objs ++ objs')) :
    UserdataAt h (u + objs.length) objs' := by
  obtain ⟨pre, post, heq, hlen⟩ := ha
  exact ⟨pre ++ objs, post, by rw [heq, List.append_assoc, List.append_assoc], by rw [List.length_append, hlen]⟩

/-- `y` has been rebuilt from the message `v`. -/
def Rebuilds (h : Heap) (v : Value) (y : LuaVal) : Prop :=
  ∃ t u, Denotes leafPush false h t u v.tree y ∧ UserdataAt h u (objectsOf leafPush v.tree)

section
variable {h : Heap} {y : LuaVal}

theorem rebuilds_leaf {l : Leaf} (hr : Rebuilds h l.toValue y) : h.leaf y = some l := by
  obtain ⟨t, u, hy, pre, post, hud, rfl⟩ := hr
  rw [Leaf.tree_toValue] at hy hud
  obtain rfl : y = leafPush.value pre.length l := hy
  refine @leaf_leafPush h pre post l ?_
  rw [hud]
  simp [objectsOf, Tree.leaves]

theorem rebuilds_array {a : List Value} (hr : Rebuilds h (.array a) y) :
    ∃ r ys, y = .table r ∧ (h.tables[r]?).map LuaTable.metatable = some false ∧ h.Holds r (sequence ys) ∧
      List.Forall₂ (Rebuilds h) a ys := by
  obtain ⟨t, u, ⟨rfl, hmeta, es, hes, hforest⟩, hud⟩ := hr
  have hall : ∀ (a : List Value) (i t u : Nat) (es : List (LuaVal × LuaVal)), DenotesForest leafPush false h t u (treeArray i a) es →
      UserdataAt h u ((treeArray i a).leaves.flatMap leafPush.objects) →
      ∃ ys, es = (ys.zipIdx i).map (fun p => (LuaVal.index (p.2 + 1), p.1)) ∧ List.Forall₂ (Rebuilds h) a ys := by
    intro a
    induction a with
    | nil => exact fun i t u es hes _ => ⟨[], hes, .nil⟩
    | cons v a ih =>
        intro i t u es hes hud
        obtain ⟨y, es', rfl, hy, hrest⟩ := hes
        rw [treeArray, Forest.leaves, List.flatMap_append] at hud
        obtain ⟨ys, rfl, hys⟩ := ih (i + 1) _ _ es' hrest hud.right
        exact ⟨y :: ys, rfl, .cons ⟨t, u, hy, hud.left⟩ hys⟩
  obtain ⟨ys, rfl, hys⟩ := hall a 0 _ _ es hforest hud
  exact ⟨t, ys, rfl, hmeta, hes, hys⟩

theorem rebuilds_object {m : List (Bytes × Value)} (hr : Rebuilds h (.object m) y) :
    ∃ r, y = .table r ∧ (h.tables[r]?).map LuaTable.metatable = some false ∧
      (∀ key, h.rawget r key ≠ none ↔ ∃ k v, key = .string k ∧ m.lookup k = some v) ∧
      ∀ k v y, m.lookup k = some v → h.rawget r (.string k) = some y → Rebuilds h v y := by
  obtain ⟨t, u, ⟨rfl, hmeta, es, hes, hforest⟩, hud⟩ := hr
  have hall : ∀ (m : List (Bytes × Value)) (t u : Nat) (es : List (LuaVal × LuaVal)), DenotesForest leafPush false h t u (treeObject m) es →
      UserdataAt h u ((treeObject m).leaves.flatMap leafPush.objects) →
      (∀ key, es.lookup key ≠ none ↔ ∃ k v, key = .string k ∧ m.lookup k = some v) ∧
        ∀ k v y, m.lookup k = some v → es.lookup (.string k) = some y → Rebuilds h v y := by
    intro m
    induction m with
    | nil =>
        intro t u es hes _
        obtain rfl : es = [] := hes
        exact ⟨fun key => by simp, fun k v y hv => by cases hv⟩
    | cons e m ih =>
        obtain ⟨k₀, v₀⟩ := e
        intro t u es hes hud
        obtain ⟨y₀, es', rfl, hy₀, hrest⟩ := hes
        rw [treeObject, Forest.leaves, List.flatMap_append] at hud
        obtain ⟨hkeys, hvalues⟩ := ih _ _ es' hrest hud.right
        refine ⟨fun key => ?_, fun k v y hv hy => ?_⟩
        · by_cases hkey : key = .string k₀
          · subst hkey
            simp only [List.lookup_cons_self, ne_eq, reduceCtorEq, not_false_eq_true, true_iff]
            exact ⟨k₀, v₀, rfl, by simp⟩
          · have hbeq : (key == LuaVal.string k₀) = false := by simpa using hkey
            rw [List.lookup_cons, hbeq]
            refine (hkeys key).trans ⟨?_, ?_⟩
            · rintro ⟨k, v, rfl, hv⟩
              have hne : k ≠ k₀ := fun heq => hkey (heq ▸ rfl)
              exact ⟨k, v, rfl, by rw [lookup_cons_eq, if_neg hne, hv]⟩
            · rintro ⟨k, v, rfl, hv⟩
              have hne : k ≠ k₀ := fun heq => hkey (heq ▸ rfl)
              rw [lookup_cons_eq, if_neg hne] at hv
              exact ⟨k, v, rfl, hv⟩
        · rw [lookup_cons_eq] at hv
          by_cases hk : k = k₀
          · subst hk
            rw [if_pos rfl] at hv
            cases hv
            simp only [List.lookup_cons_self, Option.some.injEq] at hy
            exact hy ▸ ⟨t, u, hy₀, hud.left⟩
          · rw [if_neg hk] at hv
            have hbeq : (LuaVal.string k == LuaVal.string k₀) = false := by simpa using hk
            rw [List.lookup_cons, hbeq] at hy
            exact hvalues k v y hv hy
  obtain ⟨hkeys, hvalues⟩ := hall m _ _ es hforest hud
  refine ⟨t, rfl, hmeta, fun key => ?_, fun k v y hv hy => ?_⟩
  · rw [hes.fields]
    exact hkeys key
  · rw [hes.fields] at hy
    exact hvalues k v y hv hy

end

/-- What is rebuilt from the message of a table mirrors the table. -/
theorem message_mirrors {env : SenderEnv} {g h : Heap} {strict : Bool} {room dups dups' t : Nat} {path : List Nat} {v : Value} {y : LuaVal}
    (hmeta : (Json.table g t).metatable = false) (hv : message env g strict room path dups t = .ok (v, dups')) (hy : Rebuilds h v y) :
    Mirrors env g h (.table t) y := by
  have htable : ∀ t v, (Json.table g t).metatable = false → Becomes env g (fun w v => ∀ y, Rebuilds h v y → Mirrors env g h w y) t v →
      ∀ y, Rebuilds h v y → Mirrors env g h (.table t) y := by
    intro t v hmeta hv y hy
    cases hv with
    | @array a hlen ha =>
        obtain ⟨r, ys, rfl, hplain, hholds, hys⟩ := rebuilds_array hy
        refine .array hmeta hlen hplain hholds ?_
        clear hy hholds hlen
        generalize env.cut g t = ws at ha
        induction ha generalizing ys with
        | nil =>
            cases hys
            exact .nil
        | cons hw _ ih =>
            cases hys with
            | cons hy hys => exact .cons (hw _ hy) (ih _ hys)
    | @object m hlen hnodup hkeys hm =>
        obtain ⟨r, rfl, hplain, hfields, hvalues⟩ := rebuilds_object hy
        refine .object hmeta hlen hplain (fun key => (hfields key).trans ?_) fun k w y hw hy => ?_
        · constructor
          · rintro ⟨k, v, rfl, hv⟩
            cases hk : (env.kept g (Json.table g t).pairs).lookup k with
            | none =>
                rw [(hkeys k).mpr hk] at hv
                cases hv
            | some w => exact ⟨k, w, rfl, hk⟩
          · rintro ⟨k, w, rfl, hw⟩
            cases hk : m.lookup k with
            | none =>
                rw [(hkeys k).mp hk] at hw
                cases hw
            | some v => exact ⟨k, v, rfl, hk⟩
        · have hsome : h.rawget r (.string k) ≠ none := by simp [hy]
          obtain ⟨k', v, heq, hv⟩ := (hfields _).mp hsome
          obtain rfl := LuaVal.string.inj heq
          exact hm k w v hw hv y (hvalues k v y hv hy)
  refine htable t v hmeta (message_becomes ?_ ?_ htable hv) y hy
  · intro w x hitem y hy
    obtain ⟨l, rfl⟩ := item_leaf hitem
    exact .leaf hitem (rebuilds_leaf hy)
  · intro w fd n newfd hitem hdup y hy
    exact .descriptor hitem hdup (rebuilds_leaf (l := .fileDescriptor newfd) hy)

/-! Whose the descriptors are. -/

/-- The results of the calls of `dup` from one number to another. -/
inductive Duplicated (env : SenderEnv) : Nat → Nat → List Int → Prop where
  | nil (n : Nat) : Duplicated env n n []
  | cons {n m fd newfd fds} (hdup : env.dup n fd = .ok newfd) (hrest : Duplicated env (n + 1) m fds) :
      Duplicated env n m (newfd :: fds)

theorem Duplicated.append {env : SenderEnv} {n m k : Nat} {fds fds' : List Int} (h : Duplicated env n m fds)
    (h' : Duplicated env m k fds') : Duplicated env n k (fds ++ fds') := by
  induction h with
  | nil n => exact h'
  | cons hdup _ ih => exact .cons hdup (ih h')

theorem boxesArray_append (a b : List Value) : boxesArray (a ++ b) = boxesArray a ++ boxesArray b := by
  induction a with
  | nil => rfl
  | cons v a ih => rw [List.cons_append, boxesArray, boxesArray, ih, List.append_assoc]

section
variable {env : SenderEnv} {g : Heap} {strict : Bool} {recur : List Nat → Nat → Nat → Except Halt (Value × Nat)} {path : List Nat}

theorem child_none {w : LuaVal} {dups dups' : Nat} (h : child env g strict recur path dups w = .ok (none, dups')) : dups' = dups := by
  rw [child] at h
  cases hitem : env.item g w with
  | leaf x =>
      rw [hitem] at h
      cases h
  | descriptor fd =>
      simp only [hitem] at h
      cases hdup : env.dup dups fd with
      | ok newfd =>
          rw [hdup] at h
          cases h
      | error errno =>
          rw [hdup] at h
          cases h
  | table t =>
      simp only [hitem] at h
      split at h
      · cases h
      · obtain ⟨b, -, heq⟩ := Ancestors.map_ok h
        cases heq
  | unsendable =>
      rw [hitem] at h
      cases h
      rfl
  | cdata =>
      simp only [hitem] at h
      split at h
      · cases h
      · cases h
        rfl

theorem item_leaf_boxes {w : LuaVal} {x : Value} (h : env.item g w = .leaf x) : x.boxes = [] := by
  cases w with
  | userdata ref =>
      rw [SenderEnv.item] at h
      repeat' split at h
      all_goals cases h
      all_goals rfl
  | table t =>
      rw [SenderEnv.item] at h
      split at h <;> cases h
  | boolean b | number bits | string str =>
      cases h
      rfl
  | _ => cases h

/-- A message owns what has been duplicated for it. -/
def Owns (env : SenderEnv) (n m : Nat) (owned : List Int) : Prop := ∃ fds, Duplicated env n m fds ∧ owned.Perm fds

theorem child_owns (hrec : ∀ path dups dups' t v, recur path dups t = .ok (v, dups') → Owns env dups dups' v.boxes)
    {w : LuaVal} {x : Value} {dups dups' : Nat} (h : child env g strict recur path dups w = .ok (some x, dups')) :
    Owns env dups dups' x.boxes := by
  rcases child_ok h with ⟨hitem, rfl⟩ | ⟨fd, newfd, hitem, hdup, rfl, rfl⟩ | ⟨c, rfl, hmeta, -, hr⟩
  · rw [item_leaf_boxes hitem]
    exact ⟨[], .nil _, .refl _⟩
  · exact ⟨[newfd], .cons hdup (.nil _), .refl _⟩
  · exact hrec path dups dups' c x hr

theorem Owns.append {n m k : Nat} {owned owned' : List Int} (h : Owns env n m owned) (h' : Owns env m k owned') :
    Owns env n k (owned ++ owned') := by
  obtain ⟨fds, hdup, hperm⟩ := h
  obtain ⟨fds', hdup', hperm'⟩ := h'
  exact ⟨fds ++ fds', hdup.append hdup', hperm.append hperm'⟩

theorem Owns.perm {n m : Nat} {owned owned' : List Int} (h : Owns env n m owned) (hp : owned'.Perm owned) : Owns env n m owned' := by
  obtain ⟨fds, hdup, hperm⟩ := h
  exact ⟨fds, hdup, hp.trans hperm⟩

variable (hrec : ∀ path dups dups' t v, recur path dups t = .ok (v, dups') → Owns env dups dups' v.boxes) {first : Nat}
include hrec

theorem elements_own {vs : List LuaVal} {a : List Value} {dups dups' : Nat} {v : Value} (ha : Owns env first dups (boxesArray a))
    (h : elements env g strict recur path vs a dups = .ok (v, dups')) : Owns env first dups' v.boxes := by
  induction vs generalizing a dups with
  | nil =>
      cases h
      exact ha
  | cons w vs ih =>
      rw [elements] at h
      obtain ⟨⟨r, dups₁⟩, hw, hrest⟩ := Ancestors.bind_ok h
      cases r with
      | none =>
          cases hrest
          rw [child_none hw]
          exact ha
      | some x =>
          refine ih ?_ hrest
          rw [boxesArray_append]
          have hx := child_owns hrec hw
          exact ha.append (by simpa [boxesArray] using hx)

theorem members_own {fs : List (LuaVal × LuaVal)} {m : List (Bytes × Value)} {dups dups' : Nat} {v : Value}
    (hfs : (fs.map Prod.fst).Nodup) (hnew : ∀ k w, (LuaVal.string k, w) ∈ fs → m.lookup k = none)
    (hm : Owns env first dups (boxesObject m)) (h : members env g strict recur path fs m dups = .ok (v, dups')) :
    Owns env first dups' v.boxes := by
  induction fs generalizing m dups with
  | nil =>
      cases h
      exact hm
  | cons f fs ih =>
      obtain ⟨key, w⟩ := f
      rw [List.map_cons, List.nodup_cons] at hfs
      have hrest : ∀ k' w', (LuaVal.string k', w') ∈ fs → m.lookup k' = none :=
        fun k' w' hin => hnew k' w' (List.mem_cons_of_mem _ hin)
      cases key with
      | string k =>
          rw [members] at h
          obtain ⟨⟨r, dups₁⟩, hw, hmembers⟩ := Ancestors.bind_ok h
          cases r with
          | none =>
              obtain rfl := child_none hw
              exact ih hfs.2 hrest hm hmembers
          | some x =>
              have hfree := hnew k w List.mem_cons_self
              refine ih hfs.2 (fun k' w' hin => ?_) ?_ hmembers
              · have hne : k' ≠ k := fun heq => hfs.1 (List.mem_map.mpr ⟨_, hin, congrArg LuaVal.string heq⟩)
                rw [lookup_emplace, hrest k' w' hin, if_neg hne]
                rfl
              · rw [emplace_fresh hfree]
                exact (hm.append (child_owns hrec hw)).perm ((boxesObject_insertKey m k x).trans List.perm_append_comm)
      | _ =>
          rw [members] at h
          · exact ih hfs.2 hrest hm h
          · simp

theorem contents_own {dups dups' t : Nat} {v : Value} (h : contents env g strict recur path dups t = .ok (v, dups')) :
    Owns env dups dups' v.boxes := by
  rw [contents] at h
  split at h
  · exact elements_own hrec ⟨[], .nil _, .refl _⟩ h
  · exact members_own hrec (pairs_nodup _) (fun _ _ _ => rfl) ⟨[], .nil _, .refl _⟩ h

end

theorem message_owns {env : SenderEnv} {g : Heap} {strict : Bool} {room dups dups' t : Nat} {path : List Nat} {v : Value}
    (h : message env g strict room path dups t = .ok (v, dups')) : Owns env dups dups' v.boxes := by
  induction room generalizing path dups dups' t v with
  | zero => exact contents_own (fun _ _ _ _ _ hr => by cases hr) h
  | succ room ih => exact contents_own (fun _ _ _ _ _ hr => ih hr) h

/-! From one VM to the other. -/

/-- A table that the sender's loop has made a message of is rebuilt by the
receiver as a mirror of it, and each descriptor that was duplicated for the
message gets one handle. -/
theorem sent_received {env : SenderEnv} {g : Graph} {base : List LuaVal} {fuel dups : Nat} {L : LuaState} {v : Value}
    (hsent : serialize env fuel ⟨base, g.heap⟩ g.root = some (.ok (L, v, dups))) (M : LuaState) :
    ∃ M' result objs, deserializerRun M v = some (M', v.spent) ∧ M'.at? 1 = some result ∧
      Mirrors env g.heap M'.heap (.table g.root) result ∧ M'.heap.userdata = M.heap.userdata ++ objs ∧
      Owns env 0 dups (objs.flatMap Userdata.boxed) := by
  have hspec := agrees_ok (serialize_agrees hsent)
  rw [specification] at hspec
  split at hspec
  · cases hspec
  rename_i hroot
  have hmeta : (Json.table g.heap g.root).metatable = false := by simpa using hroot
  have hdeep : v.tree.depth ≤ intMax := (message_depth hspec).trans (by decide)
  obtain ⟨M', result, hrun, hbuilt⟩ := deserializerRun_rebuilds M v (message_sound hspec) hdeep
  obtain ⟨t, -, hdenotes⟩ := hbuilt.denotes
  have htop : M'.at? 1 = some result := by
    rcases hbuilt.levels with ⟨a, -, hstack⟩ | ⟨tree, hstack, -⟩ <;> simp [LuaState.at?, hstack]
  have hrebuilds : Rebuilds M'.heap v result := by
    refine ⟨t, _, hdenotes, M.heap.userdata, [], ?_, rfl⟩
    rw [List.append_nil]
    exact hbuilt.objects
  refine ⟨M', result, objectsOf leafPush v.tree, hrun, htop, message_mirrors hmeta hspec hrebuilds, hbuilt.objects, ?_⟩
  rw [objectsOf, v.objects_moved.1]
  exact message_owns hspec

/-- Table 0 has table 1 under two keys. -/
def sharedHeap : Heap :=
  ⟨[⟨false, (∅ : AList _).insert (.string [97]) (.table 1) |>.insert (.string [98]) (.table 1)⟩,
    ⟨false, (∅ : AList _).insert (.string [99]) (.userdata 0)⟩], [.fileDescriptor 3]⟩

theorem sharedHeap_root : 0 < sharedHeap.tables.length := by decide

theorem sharedHeap_closed : ∀ x ∈ sharedHeap.tables, ∀ f ∈ x.fields.entries, ∀ t, f.2 = .table t →
    t < sharedHeap.tables.length := by
  intro x hx f hf t ht
  have hall : ∀ x ∈ sharedHeap.tables, ∀ f ∈ x.fields.entries, f.2 = .table 1 ∨ f.2 = .userdata 0 := by decide
  rcases hall x hx f hf with h | h
  · rw [h] at ht
    cases ht
    decide
  · rw [h] at ht
    cases ht

theorem sharedHeap_small : ∀ x ∈ sharedHeap.tables, x.fields.entries.length < Json.arrayKeyMax := by decide

def shared : Graph := ⟨sharedHeap, 0, sharedHeap_root, sharedHeap_closed, sharedHeap_small⟩

def copying : SenderEnv := ⟨0, fun _ => 0, fun n _ => .ok (10 + n)⟩

def sharedMessage : Value :=
  .object [([97], .object [([99], .fileDescriptor 11)]), ([98], .object [([99], .fileDescriptor 10)])]

theorem sent_received_shared :
    ∃ M' result objs, deserializerRun ⟨[], .empty⟩ sharedMessage = some (M', sharedMessage.spent) ∧ M'.at? 1 = some result ∧
      Mirrors copying shared.heap M'.heap (.table 0) result ∧ M'.heap.userdata = [] ++ objs ∧
      Owns copying 0 2 (objs.flatMap Userdata.boxed) :=
  @sent_received copying shared [] 10 2 _ sharedMessage rfl ⟨[], .empty⟩

end Emilua
