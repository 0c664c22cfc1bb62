import Emilua.Json.Decoding
import Emilua.Json.Encoding

/-!
`json.decode` of what `json.encode` generates. The symbols of a document are
those of no other one, and what is read for a value is the same value again but
for what a document cannot say: which tables are shared, the fields left out and
the sign of a zero.
-/
namespace Emilua.Json
open Wire Keyed Ancestors

/-! The symbols determine the document. -/

theorem symbols_head (d : Doc) : ∃ x xs, d.symbols = x :: xs ∧ x ≠ .endArray ∧ x ≠ .endObject := by
  cases d with
  | leaf a => exact ⟨.value a, [], rfl, by simp, by simp⟩
  | array es => exact ⟨.beginArray, _, rfl, by simp, by simp⟩
  | object ms => exact ⟨.beginObject, _, rfl, by simp, by simp⟩

mutual

theorem symbols_cancel : (d d' : Doc) → {rest rest' : List Symbol} → d.symbols ++ rest = d'.symbols ++ rest' →
    d = d' ∧ rest = rest'
  | .leaf a, .leaf a', rest, rest', h => by
      simpa [Doc.symbols] using h
  | .array es, .array es', rest, rest', h => by
      simp only [Doc.symbols, List.cons_append, List.append_assoc, List.nil_append, List.cons.injEq, true_and] at h
      obtain ⟨rfl, hrest⟩ := arraySymbols_cancel es es' h
      exact ⟨rfl, hrest⟩
  | .object ms, .object ms', rest, rest', h => by
      simp only [Doc.symbols, List.cons_append, List.append_assoc, List.nil_append, List.cons.injEq, true_and] at h
      obtain ⟨rfl, hrest⟩ := objectSymbols_cancel ms ms' h
      exact ⟨rfl, hrest⟩
  | .leaf _, .array _, _, _, h | .leaf _, .object _, _, _, h | .array _, .leaf _, _, _, h | .array _, .object _, _, _, h
  | .object _, .leaf _, _, _, h | .object _, .array _, _, _, h => by
      simp [Doc.symbols] at h

theorem arraySymbols_cancel : (es es' : List Doc) → {rest rest' : List Symbol} →
    arraySymbols es ++ (.endArray :: rest) = arraySymbols es' ++ (.endArray :: rest') → es = es' ∧ rest = rest'
  | [], [], rest, rest', h => by
      simpa [arraySymbols] using h
  | [], e :: es, rest, rest', h => by
      obtain ⟨x, xs, hx, hne, -⟩ := symbols_head e
      simp only [arraySymbols, hx, List.cons_append, List.nil_append, List.cons.injEq] at h
      exact absurd h.1.symm hne
  | e :: es, [], rest, rest', h => by
      obtain ⟨x, xs, hx, hne, -⟩ := symbols_head e
      simp only [arraySymbols, hx, List.cons_append, List.nil_append, List.cons.injEq] at h
      exact absurd h.1 hne
  | e :: es, e' :: es', rest, rest', h => by
      simp only [arraySymbols, List.append_assoc] at h
      obtain ⟨rfl, hes⟩ := symbols_cancel e e' h
      obtain ⟨rfl, hrest⟩ := arraySymbols_cancel es es' hes
      exact ⟨rfl, hrest⟩

theorem objectSymbols_cancel : (ms ms' : List (Bytes × Doc)) → {rest rest' : List Symbol} →
    objectSymbols ms ++ (.endObject :: rest) = objectSymbols ms' ++ (.endObject :: rest') → ms = ms' ∧ rest = rest'
  | [], [], rest, rest', h => by
      simpa [objectSymbols] using h
  | [], (k, d) :: ms, rest, rest', h | (k, d) :: ms, [], rest, rest', h => by
      simp [objectSymbols] at h
  | (k, d) :: ms, (k', d') :: ms', rest, rest', h => by
      simp only [objectSymbols, List.cons_append, List.append_assoc, List.cons.injEq, Symbol.value.injEq,
        Scalar.string.injEq] at h
      obtain ⟨rfl, hd⟩ := h
      obtain ⟨rfl, hms⟩ := symbols_cancel d d' hd
      obtain ⟨rfl, hrest⟩ := objectSymbols_cancel ms ms' hms
      exact ⟨rfl, hrest⟩

end

theorem symbols_injective {d d' : Doc} (h : d.symbols = d'.symbols) : d = d' :=
  (@symbols_cancel d d' [] [] (by rw [h])).1

/-! Every document that is written can be counted. -/

/-- No table has more fields than an array can have elements. -/
def Countable (h : Heap) : Prop := ∀ t ∈ h.tables, t.fields.entries.length ≤ arrayKeyMax

section
variable {e : Encoder} {h : Heap} {v : LuaVal} {d : Doc} {V : Finset LuaVal}

theorem ipairsFrom_length (t : LuaTable) (n i : Nat) : (ipairsFrom t n i).length ≤ n := by
  induction n generalizing i with
  | zero => exact Nat.le_refl _
  | succ n ih =>
      rw [ipairsFrom]
      split
      · exact Nat.zero_le _
      · exact Nat.succ_le_succ (ih (i + 1))

theorem Countable.ipairs_length (hcount : Countable h) (t : Nat) : (ipairs (table h t)).length ≤ arrayKeyMax := by
  refine (ipairsFrom_length _ _ 1).trans ?_
  rw [table]
  cases hget : h.tables[t]? with
  | none => exact Nat.zero_le _
  | some x => exact hcount x (List.mem_of_getElem? hget)

theorem unfoldsAll_length {vs : List LuaVal} {ds : List Doc} (hds : UnfoldsAll e h vs ds) : ds.length = vs.length := by
  induction vs generalizing ds with
  | nil =>
      cases hds
      rfl
  | cons v vs ih =>
      cases hds with
      | cons _ hrest => rw [List.length_cons, List.length_cons, ih hrest]

mutual

theorem short_of_unfolds (hcount : Countable h) : {v : LuaVal} → {d : Doc} → Unfolds e h v d → d.Short
  | _, _, .scalar _ => trivial
  | _, _, .array (t := t) _ _ hds => ⟨(unfoldsAll_length hds).trans_le (hcount.ipairs_length t), shortElements_of_unfolds hcount hds⟩
  | _, _, .object _ _ hms => shortMembers_of_unfolds hcount hms

theorem shortElements_of_unfolds (hcount : Countable h) : {vs : List LuaVal} → {ds : List Doc} → UnfoldsAll e h vs ds →
    shortElements ds
  | _, _, .nil => trivial
  | _, _, .cons hd hds => ⟨short_of_unfolds hcount hd, shortElements_of_unfolds hcount hds⟩

theorem shortMembers_of_unfolds (hcount : Countable h) : {vs : List (Bytes × LuaVal)} → {ms : List (Bytes × Doc)} →
    UnfoldsMembers e h vs ms → shortMembers ms
  | _, _, .nil => trivial
  | _, _, .cons hd hms => ⟨short_of_unfolds hcount hd, shortMembers_of_unfolds hcount hms⟩

end

theorem child_element {t : Nat} {c : LuaVal} (hkind : e.kind v = .table t) (harray : e.isArray (table h t) = true)
    (hc : c ∈ ipairs (table h t)) : e.Child h v c :=
  ⟨t, hkind, by rwa [Encoder.children, if_pos harray]⟩

theorem child_member {t : Nat} {c : LuaVal} (hkind : e.kind v = .table t) (harray : e.isArray (table h t) = false)
    (hc : c ∈ (members (table h t)).map Prod.snd) : e.Child h v c :=
  ⟨t, hkind, by rwa [Encoder.children, if_neg (by rw [harray]; exact Bool.false_ne_true)]⟩

/-- Below a value one table less is left. -/
theorem child_clear {c : LuaVal} (hclear : ¬ Meets e.Tracked (e.Child h) V v) (hc : e.Child h v c) :
    ¬ Meets e.Tracked (e.Child h) (insert v V) c ∧ room (nodes h) (insert v V) + 1 ≤ room (nodes h) V := by
  refine ⟨fun hm => hclear (.below hc hm), ?_⟩
  obtain ⟨t, hkind, -⟩ := id hc
  exact le_of_eq <| room_insert hc.node fun hmem => hclear (.here (.inr ⟨t, hkind⟩) hmem)

mutual

/-- A path that meets no table twice has no more of them than there are. -/
theorem depth_le_room : {v : LuaVal} → {d : Doc} → {V : Finset LuaVal} → Unfolds e h v d →
    ¬ Meets e.Tracked (e.Child h) V v → d.tree.depth ≤ room (nodes h) V + 1
  | _, _, _, .scalar _, _ => Nat.zero_le _
  | _, _, _, .array hkind harray hds, hclear =>
      Nat.succ_le_succ (elements_depth hds 0 fun _ hc => child_clear hclear (child_element hkind harray hc))
  | _, _, _, .object hkind harray hms, hclear =>
      Nat.succ_le_succ (members_depth hms fun _ hc => child_clear hclear (child_member hkind harray hc))

theorem elements_depth : {vs : List LuaVal} → {ds : List Doc} → {V : Finset LuaVal} → {n : Nat} → UnfoldsAll e h vs ds →
    (i : Nat) → (∀ c ∈ vs, ¬ Meets e.Tracked (e.Child h) V c ∧ room (nodes h) V + 1 ≤ n) → (treeElements i ds).depth ≤ n
  | _, _, _, _, .nil, _, _ => Nat.zero_le _
  | _, _, _, _, .cons hd hds, i, hall =>
      Nat.max_le.mpr ⟨(depth_le_room hd (hall _ List.mem_cons_self).1).trans (hall _ List.mem_cons_self).2,
        elements_depth hds (i + 1) fun c hc => hall c (List.mem_cons_of_mem _ hc)⟩

theorem members_depth : {vs : List (Bytes × LuaVal)} → {ms : List (Bytes × Doc)} → {V : Finset LuaVal} → {n : Nat} →
    UnfoldsMembers e h vs ms →
    (∀ c ∈ vs.map Prod.snd, ¬ Meets e.Tracked (e.Child h) V c ∧ room (nodes h) V + 1 ≤ n) → (treeMembers ms).depth ≤ n
  | _, _, _, _, .nil, _ => Nat.zero_le _
  | _, _, _, _, .cons hd hms, hall =>
      Nat.max_le.mpr ⟨(depth_le_room hd (hall _ List.mem_cons_self).1).trans (hall _ List.mem_cons_self).2,
        members_depth hms fun c hc => hall c (List.mem_cons_of_mem _ hc)⟩

end

end

/-! What is read again. -/

/-- Doubles of one value: only zero has two. -/
def SameNumber (x y : UInt64) : Prop := x = y ∨ (x.toNat % 2 ^ 63 = 0 ∧ y.toNat % 2 ^ 63 = 0)

/-- A value `w` of the heap `h'` has everything that is encoded of the value `v`
of `h`, in its place. -/
inductive Alike (e : Encoder) (h h' : Heap) : LuaVal → LuaVal → Prop where
  | boolean (b) : Alike e h h' (.boolean b) (.boolean b)
  | number {x y} (hsame : SameNumber y x) : Alike e h h' (.number x) (.number y)
  | string (s) : Alike e h h' (.string s) (.string s)
  | null : Alike e h h' (.table e.null) (.table e.null)
  | array {t t' ws} (harray : e.isArray (table h t) = true)
      (hmeta : (h'.tables[t']?).map LuaTable.metatable = some true) (hholds : h'.Holds t' (sequence ws))
      (hall : List.Forall₂ (Alike e h h') (ipairs (table h t)) ws) : Alike e h h' (.table t) (.table t')
  | object {t t' fs} (harray : e.isArray (table h t) = false)
      (hmeta : (h'.tables[t']?).map LuaTable.metatable = some false) (hholds : h'.Holds t' fs)
      (hkeys : fs.map Prod.fst = (members (table h t)).map fun m => .string m.1)
      (hall : List.Forall₂ (Alike e h h') ((members (table h t)).map Prod.snd) (fs.map Prod.snd)) :
      Alike e h h' (.table t) (.table t')

theorem lastOf_nodup {κ β : Type} [DecidableEq κ] {es : List (κ × β)} (hnodup : (es.map Prod.fst).Nodup) : lastOf es = es := by
  induction es with
  | nil => rfl
  | cons e es ih =>
      rw [List.map_cons, List.nodup_cons] at hnodup
      rw [lastOf, if_neg hnodup.1, ih hnodup.2]

theorem member_key {f : LuaVal × LuaVal} {m : Bytes × LuaVal} (hf : member f = some m) : f.1 = .string m.1 := by
  obtain ⟨k, v⟩ := f
  cases k with
  | string k =>
      rw [member] at hf
      split at hf
      · cases hf
      · cases hf
        rfl
  | _ => cases hf

theorem filterMap_member_nodup {fs : List (LuaVal × LuaVal)} (hnodup : (fs.map Prod.fst).Nodup) :
    ((fs.filterMap member).map Prod.fst).Nodup := by
  induction fs with
  | nil => exact List.nodup_nil
  | cons f fs ih =>
      rw [List.map_cons, List.nodup_cons] at hnodup
      cases hf : member f with
      | none =>
          rw [List.filterMap_cons_none hf]
          exact ih hnodup.2
      | some m =>
          rw [List.filterMap_cons_some hf, List.map_cons, List.nodup_cons]
          refine ⟨fun hmem => hnodup.1 ?_, ih hnodup.2⟩
          obtain ⟨m', hm', heq⟩ := List.mem_map.mp hmem
          obtain ⟨f', hf', hmember⟩ := List.mem_filterMap.mp hm'
          rw [member_key hf, ← heq, ← member_key hmember]
          exact List.mem_map_of_mem hf'

theorem pairs_nodup (t : LuaTable) : ((pairs t).map Prod.fst).Nodup := by
  have hkeys := t.fields.nodupKeys
  rw [pairs, List.map_map]
  exact hkeys

theorem members_nodup (t : LuaTable) : ((members t).map Prod.fst).Nodup := filterMap_member_nodup (pairs_nodup t)

section
variable {e : Encoder} {h h' : Heap} {ofInteger : Int64 → UInt64}

theorem unfoldsMembers_keys {vs : List (Bytes × LuaVal)} {ms : List (Bytes × Doc)} (hms : UnfoldsMembers e h vs ms) :
    (domMembers ms).map Prod.fst = vs.map Prod.fst := by
  induction vs generalizing ms with
  | nil =>
      cases hms
      rfl
  | cons kv vs ih =>
      cases hms with
      | cons _ hrest => rw [domMembers, List.map_cons, List.map_cons, ih hrest]

theorem alike_scalar (hround : ∀ bits i, e.toInteger bits = some i → SameNumber (ofInteger i) bits) {v : LuaVal} {a : Scalar}
    (hkind : e.kind v = .scalar a) : Alike e h h' v ((Env.mk ofInteger e.null).value a) := by
  cases v with
  | boolean b =>
      cases hkind
      exact .boolean b
  | number bits =>
      cases hkind
      rw [Encoder.number]
      cases hint : e.toInteger bits with
      | none => exact .number (.inl rfl)
      | some i => exact .number (hround bits i hint)
  | string s =>
      cases hkind
      exact .string s
  | table t =>
      rw [Encoder.kind] at hkind
      split at hkind
      · rename_i hnull
        cases hkind
        subst hnull
        exact .null
      · cases hkind
  | _ => cases hkind

mutual

theorem alike_of_shows (hround : ∀ bits i, e.toInteger bits = some i → SameNumber (ofInteger i) bits) :
    {v w : LuaVal} → {d : Doc} → Unfolds e h v d → Shows ⟨ofInteger, e.null⟩ h' d.dom w → Alike e h h' v w
  | _, _, _, .scalar hkind, hw => hw ▸ alike_scalar hround hkind
  | _, _, _, .array hkind harray hds, hw => by
      obtain ⟨t', ws, rfl, hmeta, hholds, hws⟩ := hw
      obtain rfl := kind_table hkind
      exact .array harray hmeta hholds (alike_elements hround hds hws)
  | _, _, _, .object hkind harray hms, hw => by
      obtain ⟨t', fs, rfl, hmeta, hholds, hfs⟩ := hw
      obtain rfl := kind_table hkind
      have hkeys := unfoldsMembers_keys hms
      rw [lastOf_nodup (hkeys ▸ members_nodup _)] at hfs
      refine .object harray hmeta hholds ?_ (alike_members hround hms hfs)
      have hcomp := congrArg (List.map LuaVal.string) hkeys
      rw [List.map_map, List.map_map] at hcomp
      rw [showsMembers_keys hfs]
      exact hcomp

theorem alike_elements (hround : ∀ bits i, e.toInteger bits = some i → SameNumber (ofInteger i) bits) :
    {vs ws : List LuaVal} → {ds : List Doc} → UnfoldsAll e h vs ds → showsElements ⟨ofInteger, e.null⟩ h' (domElements ds) ws →
    List.Forall₂ (Alike e h h') vs ws
  | _, _, _, .nil, hws => by
      obtain rfl := hws
      exact .nil
  | _, _, _, .cons hd hds, hws => by
      obtain ⟨w, ws', rfl, hw, hrest⟩ := hws
      exact .cons (alike_of_shows hround hd hw) (alike_elements hround hds hrest)

theorem alike_members (hround : ∀ bits i, e.toInteger bits = some i → SameNumber (ofInteger i) bits) :
    {vs : List (Bytes × LuaVal)} → {fs : List (LuaVal × LuaVal)} → {ms : List (Bytes × Doc)} → UnfoldsMembers e h vs ms →
    showsMembers ⟨ofInteger, e.null⟩ h' (domMembers ms) fs →
    List.Forall₂ (Alike e h h') (vs.map Prod.snd) (fs.map Prod.snd)
  | _, _, _, .nil, hfs => by
      obtain rfl := hfs
      exact .nil
  | _, _, _, .cons hd hms, hfs => by
      obtain ⟨w, fs', rfl, hw, hrest⟩ := hfs
      exact .cons (alike_of_shows hround hd hw) (alike_members hround hms hrest)

end

end

/-- The result is what is built for the document, of new tables. -/
def Fresh (env : Env) (L : LuaState) (doc : Doc) (d : Decoder) : Prop :=
  ∃ v u, d.L.stack = v :: .table L.heap.tables.length :: L.stack ∧
    Built (scalarPush env) true d.L.heap (L.heap.tables.length + 1) u doc.tree v

/-- A container at the root, from the run over what is in it. -/
theorem decode_node {env : Env} {L : LuaState} {doc : Doc} {start finish : Token} {array : Bool} {ts : List Token}
    {f : Forest LuaVal Scalar Bool} {d₂ : Decoder} {b : Build} {key : PathKey} (htokens : doc.tokens = start :: (ts ++ [finish]))
    (htree : doc.tree = .node array f) (hshort : doc.Short) (hdepth : doc.tree.depth ≤ arrayKeyMax)
    (hstart : ∀ d, start.step env d = beginNode array d) (hfinish : ∀ d, finish.step env d = endNode d)
    (hrun : decodeTokens env ts ⟨⟨.table (L.heap.tables.length + 1) :: .table L.heap.tables.length :: L.stack,
      opened L.heap array⟩, [startKey array]⟩ = some (.ok d₂))
    (hbuild : Build.run (scalarPush env) true L.heap.tables.length f.events
      ⟨opened L.heap array, [L.heap.tables.length + 1]⟩ = some b)
    (hf : Follows L.heap.tables.length L.stack d₂ b) (hpath : d₂.path = [key]) :
    ∃ d, decode env L doc.tokens none = some (.ok d) ∧ Decoded env L doc d ∧ Fresh env L doc d := by
  have hend : endNode d₂ = some (.ok ⟨d₂.L, []⟩) := by rw [endNode, hpath]
  refine ⟨⟨d₂.L, []⟩, decode_eq (by rw [htokens]; exact List.cons_ne_nil _ _) ?_,
    decoded_root htree hshort hdepth hbuild hf hpath hend, ?_⟩
  · have hbegin := (hstart ⟨L.newtable.push .nil, []⟩).trans (beginNode_root array)
    rw [htokens, decodeTokens_cons hbegin, decodeTokens_append hrun, decodeTokens_cons ((hfinish d₂).trans hend)]
    rfl
  · obtain ⟨hbuilt, hsame, -⟩ := built_root env htree hdepth hbuild
    obtain ⟨cur, outer, hlevels, hstack⟩ := hf.stack
    obtain ⟨rfl, -⟩ : cur = L.heap.tables.length + 1 ∧ outer = [] := by simpa [hlevels] using hsame
    rw [← hf.heap] at hbuilt
    exact ⟨_, _, hstack, hbuilt⟩

theorem decode_decoded (env : Env) (L : LuaState) (doc : Doc) (hdepth : doc.tree.depth ≤ arrayKeyMax) (hshort : doc.Short) :
    ∃ d, decode env L doc.tokens none = some (.ok d) ∧ Decoded env L doc d ∧ Fresh env L doc d := by
  have hcount := hdepth
  cases doc with
  | leaf a =>
      refine ⟨⟨⟨env.value a :: .table L.heap.tables.length :: L.stack, L.heap.create false⟩, []⟩,
        decode_eq (List.cons_ne_nil _ _) ?_, ⟨rfl, ⟨_, rfl, rfl, .inl (Heap.holds_create _ _)⟩, fun r hr => Heap.create_same _ _ hr⟩,
        _, 0, rfl, rfl⟩
      rw [Doc.tokens, decodeTokens, a.token_step]
      rfl
  | array es =>
      rw [Doc.tree, Tree.depth] at hcount
      obtain ⟨d₂, b, hrun, hbuild, hf, hpath⟩ := follows_elements env es 0 (follows_root true) rfl (by simpa using hshort.1)
        (by rw [List.length_singleton]; omega) hshort.2
      exact decode_node rfl rfl hshort hdepth (fun _ => rfl) (fun _ => rfl) hrun hbuild hf hpath
  | object ms =>
      rw [Doc.tree, Tree.depth] at hcount
      obtain ⟨d₂, b, key, hrun, hbuild, hf, hpath⟩ := follows_members env ms (follows_root false) rfl
        (by rw [List.length_singleton]; omega) hshort
      exact decode_node rfl rfl hshort hdepth (fun _ => rfl) (fun _ => rfl) hrun hbuild hf hpath

/-- The text of these symbols has these tokens: those of the document that it is
the text of. -/
def Reads (text : List Symbol) (tokens : List Token) : Prop := ∃ doc : Doc, text = doc.symbols ∧ tokens = doc.tokens

theorem encode_text {e : Encoder} {h : Heap} {fuel : Nat} {v : LuaVal} {opts : Option Options} {s : Encoding} {text : List Symbol}
    (hrun : encode e h fuel v opts = .ok (s, some text)) : jsonEncodeRecur e h fuel ⟨∅, []⟩ v = .ok s ∧ text = s.written := by
  rw [encode] at hrun
  split at hrun
  · split at hrun
    · cases hrun
    · obtain ⟨s', hrec, hlast⟩ := bind_ok hrun
      cases hlast
      exact ⟨hrec, rfl⟩
  · split at hrun
    · cases hrun
    · obtain ⟨s', hrec, hlast⟩ := bind_ok hrun
      cases hlast

/-- A writer that knows one as an integer. -/
def unit : Encoder := { plain with toInteger := fun bits => if bits = doubleOfNat 1 then some 1 else none }

end Emilua.Json
