import Emilua.Json.Encode

/-!
`json.encode` against the graph of values it follows: it ends, stops exactly at
a table it is inside of, and leaves `visited` as it was.
-/
namespace Emilua.Json
open Wire Ancestors

section
variable {e : Encoder} {h : Heap} {s s' : Encoding} {v c : LuaVal} {V : Finset LuaVal} {r : EncodeError} {x : Symbol}
  {recur : Encoding → LuaVal → Except EncodeError Encoding}

theorem write_ok (hw : e.write s x = .ok s') : s' = ⟨s.visited, s.written ++ [x]⟩ := by
  rw [Encoder.write] at hw
  cases hr : e.refuses s.written x with
  | some code =>
      rw [hr] at hw
      cases hw
  | none =>
      rw [hr] at hw
      cases hw
      rfl

theorem write_error (hw : e.write s x = .error r) : ∃ code, r = .writer code := by
  rw [Encoder.write] at hw
  cases hr : e.refuses s.written x with
  | some code =>
      rw [hr] at hw
      cases hw
      exact ⟨code, rfl⟩
  | none =>
      rw [hr] at hw
      cases hw

theorem not_child_of_scalar {a : Scalar} (hkind : e.kind v = .scalar a) : ¬ e.Child h v c := by
  rintro ⟨t, ht, -⟩
  rw [hkind] at ht
  cases ht

theorem scalar_meets {a : Scalar} (hkind : e.kind v = .scalar a) : ¬ Meets e.Tracked (e.Child h) V v := by
  intro hm
  rcases hm.cases with ⟨hcdata | ⟨t, ht⟩, -⟩ | ⟨c, hc, -⟩
  · rw [hkind] at hcdata
    cases hcdata
  · rw [hkind] at ht
    cases ht
  · exact not_child_of_scalar hkind hc

/-- What a successful call has done. -/
structure Encoded (e : Encoder) (h : Heap) (s : Encoding) (v : LuaVal) (s' : Encoding) : Prop where
  visited : s'.visited = s.visited
  clear : ¬ Meets e.Tracked (e.Child h) s.visited v
  written : ∃ d, Unfolds e h v d ∧ s'.written = s.written ++ d.symbols

theorem Encoded.scalar {a : Scalar} (hkind : e.kind v = .scalar a) (hw : e.write s (.value a) = .ok s') :
    Encoded e h s v s' where
  visited := by rw [write_ok hw]
  clear := scalar_meets hkind
  written := ⟨.leaf a, .scalar hkind, by rw [write_ok hw, Doc.symbols]⟩

theorem elements_ok {vs : List LuaVal} (hrec : ∀ v ∈ vs, ∀ s s', s.visited = V → recur s v = .ok s' → Encoded e h s v s')
    (hs : s.visited = V) (hrun : vs.foldlM recur s = .ok s') :
    s'.visited = V ∧ (∀ v ∈ vs, ¬ Meets e.Tracked (e.Child h) V v) ∧
      ∃ ds, UnfoldsAll e h vs ds ∧ s'.written = s.written ++ arraySymbols ds := by
  induction vs generalizing s with
  | nil =>
      cases hrun
      exact ⟨hs, nofun, [], .nil, by rw [arraySymbols, List.append_nil]⟩
  | cons v vs ih =>
      rw [List.foldlM_cons] at hrun
      obtain ⟨s₁, hv, hrest⟩ := bind_ok hrun
      have hone := hrec v List.mem_cons_self s s₁ hs hv
      obtain ⟨hvisited, hclear, ds, hds, hwritten⟩ :=
        ih (fun v hv => hrec v (List.mem_cons_of_mem _ hv)) (hone.visited.trans hs) hrest
      obtain ⟨d, hd, hone_written⟩ := hone.written
      refine ⟨hvisited, ?_, d :: ds, .cons hd hds, ?_⟩
      · intro w hw
        rcases List.mem_cons.mp hw with rfl | hw
        · exact hs ▸ hone.clear
        · exact hclear w hw
      · rw [hwritten, hone_written, arraySymbols, List.append_assoc]

theorem encodeField_none {f : LuaVal × LuaVal} (hf : member f = none) : encodeField e recur s f = .ok s := by
  obtain ⟨k, v⟩ := f
  cases k with
  | string k =>
      cases hskip : skips v with
      | true => simp [encodeField, hskip]
      | false => simp [member, hskip] at hf
  | _ => rfl

/-- A field that is encoded: its key, and then its value in the one way or the other. -/
theorem encodeField_some {f : LuaVal × LuaVal} {k : Bytes} (hf : member f = some (k, v)) :
    encodeField e recur s f = (e.write s (.value (.string k))) >>= fun s => encodeValue e recur s v := by
  obtain ⟨k', v'⟩ := f
  cases k' with
  | string k' =>
      cases hskip : skips v' with
      | true => simp [member, hskip] at hf
      | false =>
          rw [member, hskip, if_neg Bool.false_ne_true, Option.some.injEq, Prod.mk.injEq] at hf
          obtain ⟨rfl, rfl⟩ := hf
          simp only [encodeField, hskip, if_neg Bool.false_ne_true]
  | _ => cases hf

theorem encodeField_ok {f : LuaVal × LuaVal} {k : Bytes} (hf : member f = some (k, v))
    (hrec : ∀ s s', s.visited = V → recur s v = .ok s' → Encoded e h s v s') (hs : s.visited = V)
    (hrun : encodeField e recur s f = .ok s') : Encoded e h ⟨V, s.written ++ [.value (.string k)]⟩ v s' := by
  rw [encodeField_some hf] at hrun
  obtain ⟨s₁, hkey, hvalue⟩ := bind_ok hrun
  obtain rfl := write_ok hkey
  rw [hs, encodeValue] at hvalue
  cases hkind : e.kind v with
  | scalar a =>
      simp only [hkind] at hvalue
      exact .scalar hkind hvalue
  | invalid | cdata | table t =>
      simp only [hkind] at hvalue
      exact hrec _ s' rfl hvalue

theorem fields_ok {fs : List (LuaVal × LuaVal)}
    (hrec : ∀ v ∈ (fs.filterMap member).map Prod.snd, ∀ s s', s.visited = V → recur s v = .ok s' → Encoded e h s v s')
    (hs : s.visited = V) (hrun : fs.foldlM (encodeField e recur) s = .ok s') :
    s'.visited = V ∧ (∀ v ∈ (fs.filterMap member).map Prod.snd, ¬ Meets e.Tracked (e.Child h) V v) ∧
      ∃ ds, UnfoldsMembers e h (fs.filterMap member) ds ∧ s'.written = s.written ++ objectSymbols ds := by
  induction fs generalizing s with
  | nil =>
      cases hrun
      exact ⟨hs, nofun, [], .nil, by rw [objectSymbols, List.append_nil]⟩
  | cons f fs ih =>
      rw [List.foldlM_cons] at hrun
      cases hf : member f with
      | none =>
          rw [encodeField_none hf] at hrun
          rw [List.filterMap_cons_none hf] at hrec ⊢
          exact ih hrec hs hrun
      | some kv =>
          obtain ⟨k, v⟩ := kv
          rw [List.filterMap_cons_some hf] at hrec ⊢
          obtain ⟨s₁, hv, hrest⟩ := bind_ok hrun
          have hone := encodeField_ok hf (hrec v List.mem_cons_self) hs hv
          obtain ⟨hvisited, hclear, ds, hds, hwritten⟩ :=
            ih (fun v hv => hrec v (List.mem_cons_of_mem _ hv)) hone.visited hrest
          obtain ⟨d, hd, hone_written⟩ := hone.written
          refine ⟨hvisited, ?_, (k, d) :: ds, .cons hd hds, ?_⟩
          · intro w hw
            rcases List.mem_cons.mp hw with rfl | hw
            · exact hone.clear
            · exact hclear w hw
          · rw [hwritten, hone_written, objectSymbols]
            simp only [List.append_assoc, List.cons_append, List.nil_append]

/-- What is between the symbols that begin and end a table. -/
theorem encodeTable_ok {t : Nat} (hkind : e.kind v = .table t)
    (hrec : ∀ c ∈ e.children (table h t), ∀ s s', s.visited = V → recur s c = .ok s' → Encoded e h s c s')
    (hs : s.visited = V) (hrun : encodeTable e recur (table h t) s = .ok s') :
    s'.visited = V ∧ (∀ c ∈ e.children (table h t), ¬ Meets e.Tracked (e.Child h) V c) ∧
      ∃ d, Unfolds e h v d ∧ s'.written = s.written ++ d.symbols := by
  rw [encodeTable] at hrun
  cases harray : e.isArray (table h t) with
  | true =>
      rw [Encoder.children, if_pos harray] at hrec ⊢
      rw [if_pos harray] at hrun
      obtain ⟨s₁, hbegin, hrun⟩ := bind_ok hrun
      obtain ⟨s₂, hrun, hend⟩ := bind_ok hrun
      obtain rfl := write_ok hbegin
      obtain ⟨hvisited, hclear, ds, hds, hwritten⟩ := elements_ok hrec (s := ⟨s.visited, s.written ++ [.beginArray]⟩) hs hrun
      obtain rfl := write_ok hend
      refine ⟨hvisited, hclear, .array ds, .array hkind harray hds, ?_⟩
      rw [hwritten, Doc.symbols]
      simp only [List.append_assoc, List.cons_append, List.nil_append]
  | false =>
      rw [Encoder.children, if_neg (by rw [harray]; exact Bool.false_ne_true)] at hrec ⊢
      rw [if_neg (by rw [harray]; exact Bool.false_ne_true)] at hrun
      obtain ⟨s₁, hbegin, hrun⟩ := bind_ok hrun
      obtain ⟨s₂, hrun, hend⟩ := bind_ok hrun
      obtain rfl := write_ok hbegin
      obtain ⟨hvisited, hclear, ds, hds, hwritten⟩ := fields_ok hrec (s := ⟨s.visited, s.written ++ [.beginObject]⟩) hs hrun
      obtain rfl := write_ok hend
      refine ⟨hvisited, hclear, .object ds, .object hkind harray hds, ?_⟩
      rw [hwritten, Doc.symbols]
      simp only [List.append_assoc, List.cons_append, List.nil_append]

theorem jsonEncodeRecur_ok {fuel : Nat} (hrun : jsonEncodeRecur e h fuel s v = .ok s') : Encoded e h s v s' := by
  induction fuel generalizing s v s' with
  | zero => cases hrun
  | succ fuel ih =>
      rw [jsonEncodeRecur] at hrun
      cases hkind : e.kind v with
      | invalid =>
          rw [hkind] at hrun
          cases hrun
      | scalar a =>
          rw [hkind] at hrun
          exact .scalar hkind hrun
      | cdata =>
          simp only [hkind] at hrun
          split at hrun <;> cases hrun
      | table t =>
          simp only [hkind] at hrun
          by_cases hmem : v ∈ s.visited
          · rw [if_pos hmem] at hrun
            cases hrun
          rw [if_neg hmem] at hrun
          obtain ⟨s₁, hbody, hlast⟩ := bind_ok hrun
          cases hlast
          obtain ⟨hvisited, hclear, d, hd, hwritten⟩ :=
            encodeTable_ok hkind (fun c _ s s' _ hrun => ih hrun) rfl hbody
          refine ⟨?_, ?_, d, hd, hwritten⟩
          · change s₁.visited.erase v = s.visited
            rw [hvisited, Finset.erase_insert hmem]
          · intro hm
            rcases hm.cases with ⟨-, hin⟩ | ⟨c, ⟨t', ht', hc⟩, hmc⟩
            · exact hmem hin
            · rw [hkind, Kind.table.injEq] at ht'
              exact hclear c (ht' ▸ hc) hmc

/-! Errors come from the writer, or from the table or one of its children. -/

theorem encodeField_error {f : LuaVal × LuaVal} (hrun : encodeField e recur s f = .error r) :
    (∃ code, r = .writer code) ∨
      ∃ k v, member f = some (k, v) ∧ ∃ s', s'.visited = s.visited ∧ recur s' v = .error r := by
  cases hf : member f with
  | none =>
      rw [encodeField_none hf] at hrun
      cases hrun
  | some kv =>
      obtain ⟨k, v⟩ := kv
      rw [encodeField_some hf] at hrun
      rcases bind_error hrun with hkey | ⟨s₁, hkey, hvalue⟩
      · exact .inl (write_error hkey)
      · obtain rfl := write_ok hkey
        rw [encodeValue] at hvalue
        cases hkind : e.kind v with
        | scalar a =>
            simp only [hkind] at hvalue
            exact .inl (write_error hvalue)
        | invalid | cdata | table t =>
            simp only [hkind] at hvalue
            exact .inr ⟨k, v, rfl, ⟨s.visited, s.written ++ [.value (.string k)]⟩, rfl, hvalue⟩

theorem mem_members {t : LuaTable} {f : LuaVal × LuaVal} {k : Bytes} (hf : f ∈ pairs t) (hm : member f = some (k, v)) :
    v ∈ (members t).map Prod.snd :=
  List.mem_map_of_mem (List.mem_filterMap.mpr ⟨f, hf, hm⟩)

theorem fields_keep {t : LuaTable}
    (hrec : ∀ v ∈ (members t).map Prod.snd, ∀ s s', s.visited = V → recur s v = .ok s' → Encoded e h s v s') :
    ∀ f ∈ pairs t, ∀ s s', s.visited = V → encodeField e recur s f = .ok s' → s'.visited = V := by
  intro f hf s s' hs hrun
  cases hm : member f with
  | none =>
      rw [encodeField_none hm] at hrun
      cases hrun
      exact hs
  | some kv => exact (encodeField_ok hm (hrec kv.2 (mem_members hf hm)) hs hrun).visited

theorem encodeTable_error {t : LuaTable}
    (hrec : ∀ c ∈ e.children t, ∀ s s', s.visited = V → recur s c = .ok s' → Encoded e h s c s')
    (hs : s.visited = V) (hrun : encodeTable e recur t s = .error r) :
    (∃ code, r = .writer code) ∨ ∃ c ∈ e.children t, ∃ s', s'.visited = V ∧ recur s' c = .error r := by
  rw [encodeTable] at hrun
  cases harray : e.isArray t with
  | true =>
      rw [Encoder.children, if_pos harray] at hrec ⊢
      rw [if_pos harray] at hrun
      rcases bind_error hrun with hbegin | ⟨s₁, hbegin, hrun⟩
      · exact .inl (write_error hbegin)
      obtain rfl := write_ok hbegin
      rcases bind_error hrun with hloop | ⟨s₂, -, hend⟩
      · exact .inr (foldlM_error (fun c hc s s' hs hc' => (hrec c hc s s' hs hc').visited.trans hs)
          (s := ⟨s.visited, s.written ++ [.beginArray]⟩) hs hloop)
      · exact .inl (write_error hend)
  | false =>
      rw [Encoder.children, if_neg (by rw [harray]; exact Bool.false_ne_true)] at hrec ⊢
      rw [if_neg (by rw [harray]; exact Bool.false_ne_true)] at hrun
      rcases bind_error hrun with hbegin | ⟨s₁, hbegin, hrun⟩
      · exact .inl (write_error hbegin)
      obtain rfl := write_ok hbegin
      rcases bind_error hrun with hloop | ⟨s₂, -, hend⟩
      · obtain ⟨f, hf, s₂, hs₂, hfield⟩ :=
          foldlM_error (fields_keep hrec) (s := ⟨s.visited, s.written ++ [.beginObject]⟩) hs hloop
        rcases encodeField_error hfield with hcode | ⟨k, v, hm, s₃, hs₃, hv⟩
        · exact .inl hcode
        · exact .inr ⟨v, mem_members hf hm, s₃, hs₃.trans hs₂, hv⟩
      · exact .inl (write_error hend)

theorem jsonEncodeRecur_error {fuel : Nat} (hrun : jsonEncodeRecur e h (fuel + 1) s v = .error r) :
    (r ≠ .cycleExists ∧ r ≠ .stuck) ∨ (r = .cycleExists ∧ e.Tracked v ∧ v ∈ s.visited) ∨
      (v ∉ s.visited ∧ ∃ c, e.Child h v c ∧ ∃ s', s'.visited = insert v s.visited ∧ jsonEncodeRecur e h fuel s' c = .error r) := by
  rw [jsonEncodeRecur] at hrun
  cases hkind : e.kind v with
  | invalid =>
      rw [hkind] at hrun
      cases hrun
      exact .inl ⟨nofun, nofun⟩
  | scalar a =>
      rw [hkind] at hrun
      obtain ⟨code, rfl⟩ := write_error hrun
      exact .inl ⟨nofun, nofun⟩
  | cdata =>
      simp only [hkind] at hrun
      by_cases hmem : v ∈ s.visited
      · rw [if_pos hmem] at hrun
        cases hrun
        exact .inr (.inl ⟨rfl, .inl hkind, hmem⟩)
      · rw [if_neg hmem] at hrun
        cases hrun
        exact .inl ⟨nofun, nofun⟩
  | table t =>
      simp only [hkind] at hrun
      by_cases hmem : v ∈ s.visited
      · rw [if_pos hmem] at hrun
        cases hrun
        exact .inr (.inl ⟨rfl, .inr ⟨t, hkind⟩, hmem⟩)
      · rw [if_neg hmem] at hrun
        rcases bind_error hrun with hbody | ⟨s₁, -, hlast⟩
        · rcases encodeTable_error (fun c _ s s' _ hrun => jsonEncodeRecur_ok hrun) rfl hbody with ⟨code, rfl⟩ | ⟨c, hc, hrest⟩
          · exact .inl ⟨nofun, nofun⟩
          · exact .inr (.inr ⟨hmem, c, ⟨t, hkind, hc⟩, hrest⟩)
        · cases hlast

/-- The error for cycles is not raised without one. -/
theorem jsonEncodeRecur_cycle {fuel : Nat} (hrun : jsonEncodeRecur e h fuel s v = .error .cycleExists) :
    Meets e.Tracked (e.Child h) s.visited v := by
  induction fuel generalizing s v with
  | zero => cases hrun
  | succ fuel ih =>
      rcases jsonEncodeRecur_error hrun with ⟨hne, -⟩ | ⟨-, htracked, hmem⟩ | ⟨-, c, hc, s', hs', hrest⟩
      · exact absurd rfl hne
      · exact .here htracked hmem
      · exact .below hc (hs' ▸ ih hrest)

/-! The recursion is never deeper than there are tables. -/

def nodes (h : Heap) : Finset LuaVal := (Finset.range h.tables.length).image .table

theorem kind_table {t : Nat} (hkind : e.kind v = .table t) : v = .table t := by
  cases v with
  | table t' =>
      rw [Encoder.kind] at hkind
      split at hkind
      · cases hkind
      · cases hkind
        rfl
  | _ => cases hkind

theorem children_empty : e.children ⟨false, ∅⟩ = [] := by
  rw [Encoder.children]
  split <;> rfl

theorem Encoder.Child.node (hc : e.Child h v c) : v ∈ nodes h := by
  obtain ⟨t, hkind, hc⟩ := hc
  rw [kind_table hkind]
  by_cases ht : t < h.tables.length
  · exact Finset.mem_image_of_mem _ (Finset.mem_range.mpr ht)
  · rw [table, List.getElem?_eq_none (by omega), Option.getD_none, children_empty] at hc
    cases hc

theorem jsonEncodeRecur_stuck {fuel : Nat} (hrun : jsonEncodeRecur e h fuel s v = .error .stuck) :
    fuel ≤ room (nodes h) s.visited := by
  induction fuel generalizing s v with
  | zero => exact Nat.zero_le _
  | succ fuel ih =>
      rcases jsonEncodeRecur_error hrun with ⟨-, hne⟩ | ⟨hne, -⟩ | ⟨hmem, c, hc, s', hs', hrest⟩
      · exact absurd rfl hne
      · cases hne
      · have hdeep := ih hrest
        have hroom := room_insert hc.node hmem
        rw [hs'] at hdeep
        omega

theorem encodeField_congr {recur' : Encoding → LuaVal → Except EncodeError Encoding} {f : LuaVal × LuaVal}
    (heq : ∀ k v, member f = some (k, v) → ∀ s, s.visited = V → recur s v = recur' s v) (hs : s.visited = V) :
    encodeField e recur s f = encodeField e recur' s f := by
  cases hm : member f with
  | none => rw [encodeField_none hm, encodeField_none hm]
  | some kv =>
      obtain ⟨k, v⟩ := kv
      rw [encodeField_some hm, encodeField_some hm]
      cases hkey : e.write s (.value (.string k)) with
      | error r => rfl
      | ok s₁ =>
          change encodeValue e recur s₁ v = encodeValue e recur' s₁ v
          rw [encodeValue, encodeValue, heq k v hm s₁ (by rw [write_ok hkey, hs])]

theorem encodeTable_congr {recur' : Encoding → LuaVal → Except EncodeError Encoding} {t : LuaTable}
    (hrec : ∀ c ∈ e.children t, ∀ s s', s.visited = V → recur s c = .ok s' → Encoded e h s c s')
    (heq : ∀ c ∈ e.children t, ∀ s, s.visited = V → recur s c = recur' s c) (hs : s.visited = V) :
    encodeTable e recur t s = encodeTable e recur' t s := by
  rw [encodeTable, encodeTable]
  cases harray : e.isArray t with
  | true =>
      rw [Encoder.children, if_pos harray] at hrec heq
      rw [if_pos rfl, if_pos rfl]
      cases hbegin : e.write s .beginArray with
      | error r => rfl
      | ok s₁ =>
          have hloop := foldlM_congr (fun c hc s s' hs hc' => (hrec c hc s s' hs hc').visited.trans hs) heq
            (show s₁.visited = V by rw [write_ok hbegin, hs])
          exact congrArg (· >>= fun s => e.write s .endArray) hloop
  | false =>
      rw [Encoder.children, if_neg (by rw [harray]; exact Bool.false_ne_true)] at hrec heq
      rw [if_neg Bool.false_ne_true, if_neg Bool.false_ne_true]
      cases hbegin : e.write s .beginObject with
      | error r => rfl
      | ok s₁ =>
          have hloop := foldlM_congr (fields_keep hrec)
            (fun f hf s hs => encodeField_congr (fun k v hm => heq v (mem_members hf hm)) hs)
            (show s₁.visited = V by rw [write_ok hbegin, hs])
          exact congrArg (· >>= fun s => e.write s .endObject) hloop

/-- More fuel than there is room makes no difference. -/
theorem jsonEncodeRecur_fuel {fuel fuel' : Nat} (hf : room (nodes h) s.visited < fuel)
    (hf' : room (nodes h) s.visited < fuel') : jsonEncodeRecur e h fuel s v = jsonEncodeRecur e h fuel' s v := by
  induction fuel generalizing fuel' s v with
  | zero => exact absurd hf (Nat.not_lt_zero _)
  | succ fuel ih =>
      obtain ⟨fuel', rfl⟩ := Nat.exists_eq_succ_of_ne_zero (Nat.ne_zero_of_lt hf')
      rw [jsonEncodeRecur, Nat.succ_eq_add_one, jsonEncodeRecur]
      cases hkind : e.kind v with
      | invalid | scalar a | cdata => rfl
      | table t =>
          simp only
          by_cases hmem : v ∈ s.visited
          · rw [if_pos hmem, if_pos hmem]
          rw [if_neg hmem, if_neg hmem]
          have hbody : encodeTable e (jsonEncodeRecur e h fuel) (table h t) ⟨insert v s.visited, s.written⟩ =
              encodeTable e (jsonEncodeRecur e h fuel') (table h t) ⟨insert v s.visited, s.written⟩ := by
            refine encodeTable_congr (h := h) (V := insert v s.visited) (fun c _ s s' _ hrun => jsonEncodeRecur_ok hrun) ?_ rfl
            intro c hc s₁ hs₁
            have hchild : e.Child h v c := ⟨t, hkind, hc⟩
            have hroom := room_insert hchild.node hmem
            apply ih <;> rw [hs₁] <;> omega
          rw [hbody]

end

/-! The whole call. -/

def start (opts : Option Options) : Encoding := ((opts.bind Options.state).map EncodeState.encoding).getD ⟨∅, []⟩

theorem encode_cases (e : Encoder) (h : Heap) (value : LuaVal) (opts : Option Options) :
    (∀ fuel, encode e h fuel value opts = .error .notSupported) ∨
      ∃ text : Encoding → Option (List Symbol), ∀ fuel,
        encode e h fuel value opts = (jsonEncodeRecur e h fuel (start opts) value).map fun s => (s, text s) := by
  cases hstate : opts.bind Options.state with
  | none =>
      cases hindent : (opts.map Options.indent).getD false with
      | true => exact .inl fun fuel => by simp only [encode, hstate, hindent, if_true]
      | false =>
          refine .inr ⟨fun s => some s.written, fun fuel => ?_⟩
          simp only [encode, hstate, hindent, start, Option.map_none, Option.getD_none, Bool.false_eq_true, if_false]
          cases jsonEncodeRecur e h fuel ⟨∅, []⟩ value <;> rfl
  | some state =>
      cases hindent : state.indent with
      | true => exact .inl fun fuel => by simp only [encode, hstate, hindent, if_true]
      | false =>
          refine .inr ⟨fun _ => none, fun fuel => ?_⟩
          simp only [encode, hstate, hindent, start, Option.map_some, Option.getD_some, Bool.false_eq_true, if_false]
          cases jsonEncodeRecur e h fuel state.encoding value <;> rfl

theorem nodes_card (h : Heap) (V : Finset LuaVal) : room (nodes h) V ≤ h.tables.length := by
  calc room (nodes h) V ≤ (nodes h).card := room_le _ _
    _ ≤ (Finset.range h.tables.length).card := Finset.card_image_le
    _ = h.tables.length := Finset.card_range _

/-- The call ends: fuel beyond the number of tables makes no difference. It
raises the error for cycles only if a path from the value meets an ancestor,
succeeds only if none does, and then has written the value out, with what is
shared at each occurrence, and left `visited` as it was. -/
theorem encode_graph (e : Encoder) (h : Heap) (value : LuaVal) (opts : Option Options) :
    (∀ fuel, h.tables.length < fuel →
      encode e h fuel value opts = encode e h (h.tables.length + 1) value opts ∧
        encode e h fuel value opts ≠ .error .stuck) ∧
    (∀ fuel, encode e h fuel value opts = .error .cycleExists →
      ∃ u, Relation.ReflTransGen (e.Child h) value u ∧ e.Tracked u ∧
        (u ∈ (start opts).visited ∨ Relation.TransGen (e.Child h) u u)) ∧
    ∀ fuel s text, encode e h fuel value opts = .ok (s, text) →
      s.visited = (start opts).visited ∧
      (∀ u, Relation.ReflTransGen (e.Child h) value u → e.Tracked u →
        u ∉ (start opts).visited ∧ ¬ Relation.TransGen (e.Child h) u u) ∧
      ∃ d, Unfolds e h value d ∧ s.written = (start opts).written ++ d.symbols := by
  rcases encode_cases e h value opts with hindent | ⟨text, hrun⟩
  · refine ⟨fun fuel _ => ⟨by rw [hindent, hindent], by rw [hindent]; nofun⟩, fun fuel herror => ?_, fun fuel s text hok => ?_⟩
    · rw [hindent] at herror
      cases herror
    · rw [hindent] at hok
      cases hok
  refine ⟨fun fuel hfuel => ?_, fun fuel herror => ?_, fun fuel s text' hok => ?_⟩
  · have hroom := nodes_card h (start opts).visited
    have heq : jsonEncodeRecur e h fuel (start opts) value = jsonEncodeRecur e h (h.tables.length + 1) (start opts) value :=
      jsonEncodeRecur_fuel (by omega) (by omega)
    refine ⟨by rw [hrun, hrun, heq], fun hstuck => ?_⟩
    rw [hrun] at hstuck
    have hdeep := jsonEncodeRecur_stuck (map_error hstuck)
    omega
  · rw [hrun] at herror
    exact jsonEncodeRecur_cycle (map_error herror)
  · rw [hrun] at hok
    obtain ⟨s', hresult, heq⟩ := map_ok hok
    cases heq
    have hencoded := jsonEncodeRecur_ok hresult
    refine ⟨hencoded.visited, fun u hu htracked => ⟨fun hmem => ?_, fun hcycle => ?_⟩, hencoded.written⟩
    · exact hencoded.clear ⟨u, hu, htracked, .inl hmem⟩
    · exact hencoded.clear ⟨u, hu, htracked, .inr hcycle⟩

/-- A writer that refuses nothing, for tables that are not sequences. -/
def plain : Encoder := ⟨0, fun _ => 0, fun _ => none, fun _ _ => none⟩

/-- Table 1 has table 2 under two keys. -/
def diamond : Heap :=
  ⟨[⟨false, ∅⟩, ⟨false, (∅ : AList _).insert (.string [97]) (.table 2) |>.insert (.string [98]) (.table 2)⟩,
    ⟨true, ∅⟩], []⟩

example : (encode plain diamond 3 (.table 1) none).toOption.map Prod.snd = some (some
    [.beginObject, .value (.string [98]), .beginArray, .endArray,
      .value (.string [97]), .beginArray, .endArray, .endObject]) := by
  decide

end Emilua.Json
