import Emilua.Json.RoundTrip

/-!
`json.encode` of what `json.decode` makes of a document. No table of it is inside
of itself, so the encoder succeeds, and what it writes denotes the same but for
the order of members and the form of numbers.
-/
namespace Emilua.Json
open Wire Keyed Ancestors

section
variable {e : Encoder} {h : Heap}

/-! What has a document is encoded as it. -/

mutual

theorem unfolds_unique : {v : LuaVal} → {d d' : Doc} → Unfolds e h v d → Unfolds e h v d' → d = d'
  | _, _, _, .scalar hkind, hd' => by
      cases hd' with
      | scalar hkind' =>
          rw [hkind] at hkind'
          cases hkind'
          rfl
      | array hkind' | object hkind' =>
          rw [hkind] at hkind'
          cases hkind'
  | _, _, _, .array hkind harray hds, hd' => by
      cases hd' with
      | scalar hkind' =>
          rw [hkind] at hkind'
          cases hkind'
      | array hkind' _ hds' =>
          rw [hkind] at hkind'
          cases hkind'
          rw [unfoldsAll_unique hds hds']
      | object hkind' harray' =>
          rw [hkind] at hkind'
          cases hkind'
          rw [harray] at harray'
          cases harray'
  | _, _, _, .object hkind harray hms, hd' => by
      cases hd' with
      | scalar hkind' =>
          rw [hkind] at hkind'
          cases hkind'
      | array hkind' harray' =>
          rw [hkind] at hkind'
          cases hkind'
          rw [harray] at harray'
          cases harray'
      | object hkind' _ hms' =>
          rw [hkind] at hkind'
          cases hkind'
          rw [unfoldsMembers_unique hms hms']

theorem unfoldsAll_unique : {vs : List LuaVal} → {ds ds' : List Doc} → UnfoldsAll e h vs ds → UnfoldsAll e h vs ds' → ds = ds'
  | _, _, _, .nil, hds' => by
      cases hds'
      rfl
  | _, _, _, .cons hd hds, hds' => by
      cases hds' with
      | cons hd' hrest => rw [unfolds_unique hd hd', unfoldsAll_unique hds hrest]

theorem unfoldsMembers_unique : {vs : List (Bytes × LuaVal)} → {ms ms' : List (Bytes × Doc)} → UnfoldsMembers e h vs ms →
    UnfoldsMembers e h vs ms' → ms = ms'
  | _, _, _, .nil, hms' => by
      cases hms'
      rfl
  | _, _, _, .cons hd hms, hms' => by
      cases hms' with
      | cons hd' hrest => rw [unfolds_unique hd hd', unfoldsMembers_unique hms hrest]

end

/-- The documents of these values are larger. -/
def Above (e : Encoder) (h : Heap) (V : Finset LuaVal) (n : Nat) : Prop := ∀ u ∈ V, ∃ d, Unfolds e h u d ∧ n < sizeOf d

theorem Above.mono {V : Finset LuaVal} {m n : Nat} (ha : Above e h V n) (hle : m ≤ n) : Above e h V m := by
  intro u hu
  obtain ⟨d, hd, hlt⟩ := ha u hu
  exact ⟨d, hd, Nat.lt_of_le_of_lt hle hlt⟩

theorem Above.insert {V : Finset LuaVal} {v : LuaVal} {d : Doc} {m : Nat} (ha : Above e h V (sizeOf d)) (hd : Unfolds e h v d)
    (hlt : m < sizeOf d) : Above e h (insert v V) m := by
  intro u hu
  rcases Finset.mem_insert.mp hu with rfl | hu
  · exact ⟨d, hd, hlt⟩
  · exact ha.mono (Nat.le_of_lt hlt) u hu

/-- A value is not above itself. -/
theorem Above.not_mem {V : Finset LuaVal} {v : LuaVal} {d : Doc} (ha : Above e h V (sizeOf d)) (hd : Unfolds e h v d) : v ∉ V := by
  intro hv
  obtain ⟨d', hd', hlt⟩ := ha v hv
  rw [unfolds_unique hd hd'] at hlt
  exact Nat.lt_irrefl _ hlt

theorem write_eq (hwriter : ∀ w x, e.refuses w x = none) (s : Encoding) (x : Symbol) :
    e.write s x = .ok ⟨s.visited, s.written ++ [x]⟩ := by
  rw [Encoder.write, hwriter]

/-- The loop over the fields does something for those that are members. -/
theorem fields_members (recur : Encoding → LuaVal → Except EncodeError Encoding) (fs : List (LuaVal × LuaVal)) (s : Encoding) :
    fs.foldlM (encodeField e recur) s =
      (fs.filterMap member).foldlM (fun s m => e.write s (.value (.string m.1)) >>= fun s => encodeValue e recur s m.2) s := by
  induction fs generalizing s with
  | nil => rfl
  | cons f fs ih =>
      rw [List.foldlM_cons]
      cases hf : member f with
      | none =>
          rw [encodeField_none hf, List.filterMap_cons_none hf]
          exact ih s
      | some m =>
          rw [encodeField_some hf, List.filterMap_cons_some hf, List.foldlM_cons]
          exact congrArg _ (funext ih)

variable {recur : Encoding → LuaVal → Except EncodeError Encoding} {s s' : Encoding}

theorem encodeTable_array (hwriter : ∀ w x, e.refuses w x = none) {t : LuaTable} (harray : e.isArray t = true)
    (hrun : (ipairs t).foldlM recur ⟨s.visited, s.written ++ [.beginArray]⟩ = .ok s') :
    encodeTable e recur t s = .ok ⟨s'.visited, s'.written ++ [.endArray]⟩ := by
  rw [encodeTable, if_pos harray, write_eq hwriter]
  change ((ipairs t).foldlM recur ⟨s.visited, s.written ++ [.beginArray]⟩ >>= fun s => e.write s .endArray) = _
  rw [hrun]
  exact write_eq hwriter s' _

theorem encodeTable_object (hwriter : ∀ w x, e.refuses w x = none) {t : LuaTable} (harray : e.isArray t = false)
    (hrun : (members t).foldlM (fun s m => e.write s (.value (.string m.1)) >>= fun s => encodeValue e recur s m.2)
      ⟨s.visited, s.written ++ [.beginObject]⟩ = .ok s') :
    encodeTable e recur t s = .ok ⟨s'.visited, s'.written ++ [.endObject]⟩ := by
  rw [encodeTable, if_neg (by rw [harray]; exact Bool.false_ne_true), write_eq hwriter]
  change ((pairs t).foldlM (encodeField e recur) ⟨s.visited, s.written ++ [.beginObject]⟩ >>= fun s => e.write s .endObject) = _
  rw [fields_members]
  change ((members t).foldlM _ _ >>= fun s => e.write s .endObject) = _
  rw [hrun]
  exact write_eq hwriter s' _

theorem jsonEncodeRecur_table {fuel t : Nat} {v : LuaVal} (hkind : e.kind v = .table t) (hmem : v ∉ s.visited)
    (hbody : encodeTable e (jsonEncodeRecur e h fuel) (table h t) ⟨insert v s.visited, s.written⟩ = .ok s') :
    jsonEncodeRecur e h (fuel + 1) s v = .ok ⟨s'.visited.erase v, s'.written⟩ := by
  rw [jsonEncodeRecur, hkind]
  simp only [if_neg hmem, hbody]
  rfl

theorem encodeValue_visited {fuel : Nat} {v : LuaVal} (hrun : encodeValue e (jsonEncodeRecur e h fuel) s v = .ok s') :
    s'.visited = s.visited := by
  rw [encodeValue] at hrun
  split at hrun
  · rw [write_ok hrun]
  · exact (jsonEncodeRecur_ok hrun).visited

mutual

theorem recur_succeeds (hwriter : ∀ w x, e.refuses w x = none) : {v : LuaVal} → {d : Doc} → Unfolds e h v d →
    {fuel : Nat} → {s : Encoding} → d.tree.depth < fuel → Above e h s.visited (sizeOf d) →
    ∃ s', jsonEncodeRecur e h fuel s v = .ok s'
  | v, .leaf a, .scalar hkind, fuel + 1, s, _, _ => by
      refine ⟨⟨s.visited, s.written ++ [.value a]⟩, ?_⟩
      rw [jsonEncodeRecur, hkind]
      exact write_eq hwriter s _
  | v, .array ds, .array hkind harray hds, fuel + 1, s, hfuel, ha => by
      have hd := Unfolds.array hkind harray hds
      have hnew : Above e h (insert v s.visited) (sizeOf ds) := ha.insert hd (by simp)
      obtain ⟨s', hrun⟩ := elements_succeed hwriter hds 0 (Nat.lt_of_succ_lt_succ hfuel) hnew
      exact ⟨_, jsonEncodeRecur_table hkind (ha.not_mem hd) (encodeTable_array hwriter harray hrun)⟩
  | v, .object ms, .object hkind harray hms, fuel + 1, s, hfuel, ha => by
      have hd := Unfolds.object hkind harray hms
      have hnew : Above e h (insert v s.visited) (sizeOf ms) := ha.insert hd (by simp)
      obtain ⟨s', hrun⟩ := members_succeed hwriter hms (Nat.lt_of_succ_lt_succ hfuel) hnew
      exact ⟨_, jsonEncodeRecur_table hkind (ha.not_mem hd) (encodeTable_object hwriter harray hrun)⟩

theorem elements_succeed (hwriter : ∀ w x, e.refuses w x = none) : {vs : List LuaVal} → {ds : List Doc} →
    UnfoldsAll e h vs ds → (i : Nat) → {fuel : Nat} → {V : Finset LuaVal} → {w : List Symbol} →
    (treeElements i ds).depth < fuel → Above e h V (sizeOf ds) →
    ∃ s', vs.foldlM (jsonEncodeRecur e h fuel) ⟨V, w⟩ = .ok s'
  | _, _, .nil, _, _, V, w, _, _ => ⟨⟨V, w⟩, rfl⟩
  | v :: vs, d :: ds, .cons hd hds, i, fuel, V, w, hfuel, ha => by
      rw [treeElements, Forest.depth, Nat.max_lt] at hfuel
      obtain ⟨⟨V₁, w₁⟩, hone⟩ := recur_succeeds hwriter hd (s := ⟨V, w⟩) hfuel.1 (ha.mono (by simp; omega))
      obtain rfl : V₁ = V := (jsonEncodeRecur_ok hone).visited
      obtain ⟨s₂, hrest⟩ := elements_succeed hwriter hds (i + 1) (w := w₁) hfuel.2 (ha.mono (by simp))
      refine ⟨s₂, ?_⟩
      rw [List.foldlM_cons, hone]
      exact hrest

theorem members_succeed (hwriter : ∀ w x, e.refuses w x = none) : {vs : List (Bytes × LuaVal)} → {ms : List (Bytes × Doc)} →
    UnfoldsMembers e h vs ms → {fuel : Nat} → {V : Finset LuaVal} → {w : List Symbol} → (treeMembers ms).depth < fuel →
    Above e h V (sizeOf ms) →
    ∃ s', vs.foldlM (fun s m => e.write s (.value (.string m.1)) >>= fun s => encodeValue e (jsonEncodeRecur e h fuel) s m.2)
      ⟨V, w⟩ = .ok s'
  | _, _, .nil, _, V, w, _, _ => ⟨⟨V, w⟩, rfl⟩
  | (k, v) :: vs, (_, d) :: ms, .cons hd hms, fuel, V, w, hfuel, ha => by
      rw [treeMembers, Forest.depth, Nat.max_lt] at hfuel
      obtain ⟨⟨V₁, w₁⟩, hone⟩ : ∃ s', encodeValue e (jsonEncodeRecur e h fuel) ⟨V, w ++ [.value (.string k)]⟩ v = .ok s' := by
        obtain ⟨s', hrun⟩ := recur_succeeds hwriter hd (s := ⟨V, w ++ [.value (.string k)]⟩) hfuel.1 (ha.mono (by simp; omega))
        rw [encodeValue]
        split
        · exact ⟨_, write_eq hwriter _ _⟩
        · exact ⟨s', hrun⟩
      obtain rfl : V₁ = V := encodeValue_visited hone
      obtain ⟨s₂, hrest⟩ := members_succeed hwriter hms (w := w₁) hfuel.2 (ha.mono (by simp))
      refine ⟨s₂, ?_⟩
      rw [List.foldlM_cons, write_eq hwriter]
      change (encodeValue e (jsonEncodeRecur e h fuel) ⟨V₁, w ++ [.value (.string k)]⟩ v >>= _) = _
      rw [hone]
      exact hrest

end

/-- A value with a document is encoded as it, unless the writer refuses. -/
theorem encode_unfolds (hwriter : ∀ w x, e.refuses w x = none) {v : LuaVal} {d : Doc} (hd : Unfolds e h v d) {fuel : Nat}
    (hfuel : h.tables.length < fuel) : ∃ s, encode e h fuel v none = .ok (s, some d.symbols) := by
  have habove : Above e h ∅ (sizeOf d) := fun u hu => absurd hu (Finset.notMem_empty u)
  obtain ⟨s, hrun⟩ := recur_succeeds hwriter hd (s := ⟨∅, []⟩) (Nat.lt_succ_self d.tree.depth |>.trans_le (Nat.le_max_left _ fuel)) habove
  have hroom := nodes_card h ∅
  have hfuel' : room (nodes h) ∅ < max (d.tree.depth + 1) fuel := hroom.trans_lt (hfuel.trans_le (Nat.le_max_right _ _))
  have hsame : jsonEncodeRecur e h (max (d.tree.depth + 1) fuel) ⟨∅, []⟩ v = jsonEncodeRecur e h fuel ⟨∅, []⟩ v :=
    jsonEncodeRecur_fuel hfuel' (hroom.trans_lt hfuel)
  rw [hsame] at hrun
  obtain ⟨d', hd', hwritten⟩ := (jsonEncodeRecur_ok hrun).written
  refine ⟨s, ?_⟩
  rw [unfolds_unique hd hd', ← List.nil_append d'.symbols]
  change (jsonEncodeRecur e h fuel ⟨∅, []⟩ v >>= fun s => .ok (s, some s.written)) = _
  rw [hrun, ← hwritten]
  rfl

end

/-! What is built for a document has one. -/

/-- The value is written as the document: in arrays element by element, in
objects in any order. -/
inductive Rewritten (e : Encoder) (env : Env) : Dom → Doc → Prop where
  | leaf {a b} (hkind : e.kind (env.value a) = .scalar b) : Rewritten e env (.leaf a) (.leaf b)
  | array {es ds} (hall : List.Forall₂ (Rewritten e env) es ds) : Rewritten e env (.array es) (.array ds)
  | object {ms ms' ds} (hperm : List.Perm ms ms') (hkeys : ms'.map Prod.fst = ds.map Prod.fst)
      (hall : List.Forall₂ (Rewritten e env) (ms'.map Prod.snd) (ds.map Prod.snd)) : Rewritten e env (.object ms) (.object ds)

section
variable {e : Encoder} {env : Env} {h : Heap}

theorem table_lookup {t : Nat} (ht : t < h.tables.length) (key : LuaVal) :
    (table h t).fields.lookup key = h.rawget t key := by
  rw [table, Heap.rawget, List.getElem?_eq_getElem ht, Option.getD_some, Option.bind_some]

theorem mem_iff_lookup {es : List (LuaVal × LuaVal)} (hnodup : (es.map Prod.fst).Nodup) {k v : LuaVal} :
    (k, v) ∈ es ↔ es.lookup k = some v := by
  induction es with
  | nil => simp
  | cons f es ih =>
      rw [List.map_cons, List.nodup_cons] at hnodup
      rw [List.mem_cons, List.lookup_cons]
      by_cases hk : k = f.1
      · subst hk
        rw [beq_self_eq_true]
        constructor
        · rintro (hf | hmem)
          · rw [← hf]
          · exact absurd (List.mem_map_of_mem hmem) hnodup.1
        · intro hf
          exact .inl (Prod.ext rfl (Option.some.inj hf).symm)
      · rw [beq_false_of_ne hk, ← ih hnodup.2]
        exact ⟨fun hmem => hmem.resolve_left fun hf => hk (hf ▸ rfl), .inr⟩

/-- `pairs` goes over the fields in some order. -/
theorem pairs_perm {t : Nat} {es : List (LuaVal × LuaVal)} (hholds : h.Holds t es) (hnodup : (es.map Prod.fst).Nodup) :
    (pairs (table h t)).Perm es := by
  rw [List.perm_ext_iff_of_nodup (pairs_nodup _).of_map hnodup.of_map]
  rintro ⟨k, v⟩
  rw [mem_iff_lookup hnodup, ← hholds.fields k, ← table_lookup hholds.bound k, ← Option.mem_def, AList.mem_lookup_iff, pairs,
    List.mem_map]
  constructor
  · rintro ⟨f, hf, heq⟩
    cases heq
    exact hf
  · exact fun hf => ⟨_, hf, rfl⟩

theorem ipairsFrom_eq {t : LuaTable} : (vs : List LuaVal) → {n i : Nat} → vs.length ≤ n → (∀ v ∈ vs, v ≠ .nil) →
    (∀ j v, vs[j]? = some v → t.fields.lookup (.index (i + j)) = some v) → t.fields.lookup (.index (i + vs.length)) = none →
    ipairsFrom t n i = vs
  | [], n, i, _, _, _, hend => by
      cases n with
      | zero => rfl
      | succ n =>
          rw [ipairsFrom]
          rw [List.length_nil, Nat.add_zero] at hend
          simp only [hend, Option.getD_none]
  | v :: vs, n + 1, i, hn, hne, hget, hend => by
      have hv := hget 0 v rfl
      have hrest : ipairsFrom t n (i + 1) = vs := by
        refine ipairsFrom_eq vs (Nat.le_of_succ_le_succ hn) (fun w hw => hne w (List.mem_cons_of_mem _ hw)) (fun j w hw => ?_) ?_
        · have hw' := hget (j + 1) w hw
          rwa [Nat.add_comm j 1, ← Nat.add_assoc] at hw'
        · rwa [List.length_cons, Nat.add_comm vs.length 1, ← Nat.add_assoc] at hend
      rw [Nat.add_zero] at hv
      rw [ipairsFrom]
      simp only [hv, Option.getD_some]
      cases v with
      | nil => exact absurd rfl (hne .nil List.mem_cons_self)
      | _ => simp only [hrest]

theorem ipairs_sequence {t : Nat} {vs : List LuaVal} (hholds : h.Holds t (sequence vs)) (hlen : vs.length + 1 < 2 ^ 53)
    (hne : ∀ v ∈ vs, v ≠ .nil) : ipairs (table h t) = vs := by
  have hfields := fun key => (table_lookup hholds.bound key).trans (hholds.fields key)
  refine ipairsFrom_eq vs ?_ hne (fun j v hv => ?_) ?_
  · have hperm := (pairs_perm hholds (sequence_nodup (by omega))).length_eq
    rw [pairs, sequence, List.length_map, List.length_map, List.length_zipIdx] at hperm
    exact hperm.ge
  · rw [hfields, Nat.add_comm 1 j, lookup_sequence (by omega) hv]
  · rw [hfields, Nat.add_comm 1 vs.length]
    exact Heap.lookup_fresh (index_not_mem_sequence hlen)

/-- Keys of strings only. -/
def stringFields (kvs : List (Bytes × LuaVal)) : List (LuaVal × LuaVal) := kvs.map fun m => (.string m.1, m.2)

theorem stringFields_keys (kvs : List (Bytes × LuaVal)) : (stringFields kvs).map Prod.fst = (kvs.map Prod.fst).map .string := by
  rw [stringFields, List.map_map, List.map_map]
  rfl

theorem lastOf_stringFields (kvs : List (Bytes × LuaVal)) : lastOf (stringFields kvs) = stringFields (lastOf kvs) := by
  induction kvs with
  | nil => rfl
  | cons m kvs ih =>
      have hmem : LuaVal.string m.1 ∈ (stringFields kvs).map Prod.fst ↔ m.1 ∈ kvs.map Prod.fst := by
        rw [stringFields_keys, List.mem_map_of_injective fun _ _ => LuaVal.string.inj]
      change (if _ ∈ (stringFields kvs).map Prod.fst then lastOf (stringFields kvs) else _ :: lastOf (stringFields kvs)) = _
      rw [lastOf, ih]
      by_cases hlater : m.1 ∈ kvs.map Prod.fst
      · rw [if_pos hlater, if_pos (hmem.mpr hlater)]
      · rw [if_neg hlater, if_neg (mt hmem.mp hlater)]
        rfl

theorem lastOf_keys_nodup {κ β : Type} [DecidableEq κ] (es : List (κ × β)) : ((lastOf es).map Prod.fst).Nodup := by
  induction es with
  | nil => exact List.nodup_nil
  | cons f es ih =>
      rw [lastOf]
      split
      · exact ih
      · rename_i hmem
        exact List.nodup_cons.mpr ⟨mt mem_lastOf_keys.mp hmem, ih⟩

theorem members_perm {t : Nat} {kvs : List (Bytes × LuaVal)} (hholds : h.Holds t (stringFields kvs))
    (hnodup : (kvs.map Prod.fst).Nodup) (hkept : ∀ m ∈ kvs, skips m.2 = false) : (members (table h t)).Perm kvs := by
  have hkeys : ((stringFields kvs).map Prod.fst).Nodup := by
    rw [stringFields_keys]
    exact hnodup.map fun _ _ => LuaVal.string.inj
  have hperm := (pairs_perm hholds hkeys).filterMap member
  have hall : ∀ kvs : List (Bytes × LuaVal), (∀ m ∈ kvs, skips m.2 = false) → (stringFields kvs).filterMap member = kvs := by
    intro kvs hkept
    induction kvs with
    | nil => rfl
    | cons m kvs ih =>
        have hm : member (.string m.1, m.2) = some m := by
          rw [member, hkept m List.mem_cons_self]
          rfl
        change List.filterMap member ((.string m.1, m.2) :: stringFields kvs) = _
        rw [List.filterMap_cons_some hm, ih fun m hm => hkept m (List.mem_cons_of_mem _ hm)]
  rwa [hall kvs hkept] at hperm

/-- A value that is not left out and has a document. -/
structure Restored (e : Encoder) (env : Env) (h : Heap) (m : Dom) (v : LuaVal) : Prop where
  solid : v ≠ .nil
  kept : skips v = false
  document : ∃ d, Unfolds e h v d ∧ Rewritten e env m d

theorem exists_related {α β : Type} {R : α → β → Prop} {xs : List α} {ys : List β} (hall : List.Forall₂ R xs ys) {x : α}
    (hx : x ∈ xs) : ∃ y, R x y := by
  induction hall with
  | nil => cases hx
  | @cons x' y xs ys hone _ ih =>
      rcases List.mem_cons.mp hx with rfl | hx
      · exact ⟨y, hone⟩
      · exact ih hx

theorem restored_elements {es : List Dom} {vs : List LuaVal} (hall : List.Forall₂ (Restored e env h) es vs) :
    ∃ ds, UnfoldsAll e h vs ds ∧ List.Forall₂ (Rewritten e env) es ds := by
  induction hall with
  | nil => exact ⟨[], .nil, .nil⟩
  | cons hone _ ih =>
      obtain ⟨d, hd, hrewritten⟩ := hone.document
      obtain ⟨ds, hds, hrest⟩ := ih
      exact ⟨d :: ds, .cons hd hds, .cons hrewritten hrest⟩

/-- A field for a member. -/
def Field (e : Encoder) (env : Env) (h : Heap) (kv : Bytes × LuaVal) (m : Bytes × Dom) : Prop :=
  m.1 = kv.1 ∧ Restored e env h m.2 kv.2

theorem restored_members {ms : List (Bytes × Dom)} {kvs : List (Bytes × LuaVal)} (hall : List.Forall₂ (Field e env h) kvs ms) :
    ∃ ds, UnfoldsMembers e h kvs ds ∧ ms.map Prod.fst = ds.map Prod.fst ∧
      List.Forall₂ (Rewritten e env) (ms.map Prod.snd) (ds.map Prod.snd) := by
  induction hall with
  | nil => exact ⟨[], .nil, rfl, .nil⟩
  | @cons kv m kvs ms hone _ ih =>
      obtain ⟨d, hd, hrewritten⟩ := hone.2.document
      obtain ⟨ds, hds, hkeys, hrest⟩ := ih
      exact ⟨(kv.1, d) :: ds, .cons hd hds, by rw [List.map_cons, List.map_cons, hone.1, hkeys], .cons hrewritten hrest⟩

theorem field_lastOf {ms : List (Bytes × Dom)} {kvs : List (Bytes × LuaVal)} (hall : List.Forall₂ (Field e env h) kvs ms) :
    List.Forall₂ (Field e env h) (lastOf kvs) (lastOf ms) := by
  induction hall with
  | nil => exact .nil
  | @cons kv m kvs ms hone hrest ih =>
      have hkeys : kvs.map Prod.fst = ms.map Prod.fst := by
        clear ih
        induction hrest with
        | nil => rfl
        | cons hone _ ih => rw [List.map_cons, List.map_cons, hone.1, ih]
      rw [lastOf, lastOf, hone.1, hkeys]
      split
      · exact ih
      · exact .cons hone ih

theorem restored_leaf (hnull : e.null = env.null) (a : Scalar) : Restored e env h (.leaf a) (env.value a) := by
  have hkind : ∃ b, e.kind (env.value a) = .scalar b := by
    cases a with
    | null => exact ⟨.null, if_pos hnull.symm⟩
    | _ => exact ⟨_, rfl⟩
  obtain ⟨b, hb⟩ := hkind
  refine ⟨by cases a <;> simp [Env.value], by cases a <;> rfl, .leaf b, .scalar hb, .leaf hb⟩

/-- What `#` finds is zero or an element. -/
def Encoder.Border (e : Encoder) : Prop := ∀ t : LuaTable, e.length t ≠ 0 → t.fields.lookup (.index (e.length t)) ≠ none

theorem not_array (hborder : e.Border) {t : Nat} {kvs : List (Bytes × LuaVal)} (hholds : h.Holds t (stringFields kvs))
    (hmeta : (h.tables[t]?).map LuaTable.metatable = some false) : e.isArray (table h t) = false := by
  have hlength : e.length (table h t) = 0 := by
    by_contra hne
    refine hborder (table h t) hne ?_
    rw [table_lookup hholds.bound, hholds.fields]
    refine Heap.lookup_fresh ?_
    rw [stringFields_keys]
    intro hmem
    obtain ⟨k, -, hk⟩ := List.mem_map.mp hmem
    cases hk
  rw [List.getElem?_eq_getElem hholds.bound] at hmeta
  rw [Encoder.isArray, hlength, table, List.getElem?_eq_getElem hholds.bound, Option.getD_some, Option.some.inj hmeta]
  rfl

theorem kind_new {n t : Nat} (hnull : e.null < n) (ht : n ≤ t) : e.kind (.table t) = .table t := by
  rw [Encoder.kind, if_neg]
  omega

mutual

/-- What is built from table `n` on, where `json.null` is before. -/
theorem Built.restored (hnull : e.null = env.null) (hborder : e.Border) {n u : Nat} (hn : env.null < n) :
    {t : Nat} → {doc : Doc} → {v : LuaVal} → n ≤ t → doc.Short → Built (scalarPush env) true h t u doc.tree v →
    Restored e env h doc.dom v
  | t, .leaf a, _, _, _, hv => hv ▸ restored_leaf hnull a
  | t, .array es, v, ht, hshort, hv => by
      obtain ⟨rfl, hmeta, fs, hfs, hchildren⟩ := hv
      obtain ⟨vs, rfl, hlen, hvs⟩ := BuiltForest.restoredElements hnull hborder hn (Nat.le_succ_of_le ht) hshort.2 hchildren
      have hmax : arrayKeyMax = 2147483647 := rfl
      have hbound : vs.length + 1 < 2 ^ 53 := by
        have hcount := hshort.1
        omega
      have hholds := hfs.holds (sequence_nodup (by omega))
      obtain ⟨ds, hds, hrewritten⟩ := restored_elements hvs
      have hitems := ipairs_sequence hholds hbound fun w hw => by
        obtain ⟨m, hone⟩ := exists_related hvs.flip hw
        exact hone.solid
      have harray : e.isArray (table h t) = true := by
        rw [List.getElem?_eq_getElem hfs.bound] at hmeta
        rw [Encoder.isArray, table, List.getElem?_eq_getElem hfs.bound, Option.getD_some, Option.some.inj hmeta]
        rfl
      exact ⟨by simp, rfl, .array ds, .array (kind_new (hnull ▸ hn) ht) harray (hitems ▸ hds), .array hrewritten⟩
  | t, .object ms, v, ht, hshort, hv => by
      obtain ⟨rfl, hmeta, fs, hfs, hchildren⟩ := hv
      obtain ⟨kvs, rfl, hkvs⟩ := BuiltForest.restoredMembers hnull hborder hn (Nat.le_succ_of_le ht) hshort hchildren
      have hholds : h.Holds t (stringFields (lastOf kvs)) :=
        ⟨hfs.bound, fun key => by rw [hfs.fields, ← lastOf_stringFields, lookup_lastOf]⟩
      have hlast := field_lastOf hkvs
      have hperm := members_perm hholds (lastOf_keys_nodup kvs) fun m hm => by
        obtain ⟨x, hone⟩ := exists_related hlast hm
        exact hone.2.kept
      obtain ⟨ms', hms', hsame⟩ := List.perm_comp_forall₂ hperm hlast
      obtain ⟨ds, hds, hkeys, hrewritten⟩ := restored_members hms'
      exact ⟨by simp, rfl, .object ds, .object (kind_new (hnull ▸ hn) ht) (not_array hborder hholds hmeta) hds,
        .object hsame.symm hkeys hrewritten⟩

theorem BuiltForest.restoredElements (hnull : e.null = env.null) (hborder : e.Border) {n u : Nat} (hn : env.null < n) :
    {t i : Nat} → {es : List Doc} → {fs : List (LuaVal × LuaVal)} → n ≤ t → shortElements es →
    BuiltForest (scalarPush env) true h t u (treeElements i es) fs →
    ∃ vs, fs = (vs.zipIdx i).map (fun p => (LuaVal.index (p.2 + 1), p.1)) ∧ vs.length = es.length ∧
      List.Forall₂ (Restored e env h) (domElements es) vs
  | t, i, [], fs, _, _, hfs => ⟨[], hfs, rfl, .nil⟩
  | t, i, x :: es, fs, ht, hshort, hfs => by
      obtain ⟨v, fs', rfl, hv, hrest⟩ := hfs
      obtain ⟨vs, rfl, hlen, hvs⟩ :=
        BuiltForest.restoredElements hnull hborder hn (ht.trans (Nat.le_add_right _ _)) hshort.2 hrest
      exact ⟨v :: vs, rfl, by rw [List.length_cons, List.length_cons, hlen],
        .cons (Built.restored hnull hborder hn ht hshort.1 hv) hvs⟩

theorem BuiltForest.restoredMembers (hnull : e.null = env.null) (hborder : e.Border) {n u : Nat} (hn : env.null < n) :
    {t : Nat} → {ms : List (Bytes × Doc)} → {fs : List (LuaVal × LuaVal)} → n ≤ t → shortMembers ms →
    BuiltForest (scalarPush env) true h t u (treeMembers ms) fs →
    ∃ kvs, fs = stringFields kvs ∧ List.Forall₂ (Field e env h) kvs (domMembers ms)
  | t, [], fs, _, _, hfs => ⟨[], hfs, .nil⟩
  | t, (k, x) :: ms, fs, ht, hshort, hfs => by
      obtain ⟨w, fs', rfl, hw, hrest⟩ := hfs
      obtain ⟨kvs, rfl, hkvs⟩ :=
        BuiltForest.restoredMembers hnull hborder hn (ht.trans (Nat.le_add_right _ _)) hshort.2 hrest
      exact ⟨(k, w) :: kvs, rfl, .cons ⟨rfl, Built.restored hnull hborder hn ht hshort.1 hw⟩ hkvs⟩

end

end

/-- An object of one member is written as one. -/
theorem rewritten_single {e : Encoder} {env : Env} {k : Bytes} {m : Dom} {doc : Doc} (hr : Rewritten e env (.object [(k, m)]) doc) :
    ∃ d, doc = .object [(k, d)] ∧ Rewritten e env m d := by
  cases hr with
  | @object _ ms' ds hperm hkeys hall =>
      obtain rfl := List.perm_singleton.mp hperm.symm
      obtain ⟨⟨k', d⟩, rfl⟩ : ∃ x, ds = [x] := List.length_eq_one_iff.mp (by simpa using (congrArg List.length hkeys).symm)
      cases hall with
      | cons hone _ =>
          obtain rfl : k = k' := by simpa using hkeys
          exact ⟨d, rfl, hone⟩

end Emilua.Json
