import Emilua.Json.Decoding

/-!
Where `json.decode` says that a document goes wrong. The path of an error is read
off the keys that the loop keeps for the levels it is inside of, and against it
stands the path to the value, from the document alone.
-/
namespace Emilua.Json
open Wire Keyed

/-- A document with numbers that the reader may refuse. -/
inductive Text where
  | leaf (a : Scalar)
  | integer (e : NumberError)
  | real (e : NumberError)
  | array (es : List Text)
  | object (ms : List (Bytes × Text))

mutual

def Text.tokens : Text → List Token
  | .leaf a => [a.token]
  | .integer e => [.integer (.error e)]
  | .real e => [.real (.error e)]
  | .array es => .beginArray :: (textElements es ++ [.endArray])
  | .object ms => .beginObject :: (textMembers ms ++ [.endObject])

def textElements : List Text → List Token
  | [] => []
  | e :: es => e.tokens ++ textElements es

def textMembers : List (Bytes × Text) → List Token
  | [] => []
  | (k, v) :: ms => .key k :: (v.tokens ++ textMembers ms)

end

inductive Offense where
  | number (e : NumberError)
  | arrayTooLong
  | tooManyLevels
deriving DecidableEq, Repr

/-- The value is of use, so that a place for it is looked for. -/
def Text.usable (depth : Nat) : Text → Bool
  | .leaf _ => true
  | .integer _ | .real _ => false
  | .array _ | .object _ => depth ≠ arrayKeyMax

mutual

/-- What is wrong first, and the path to the value that it is wrong with. An
array that is too long is wrong itself. -/
def Text.offense (depth : Nat) : Text → Option (Offense × List PathKey)
  | .leaf _ => none
  | .integer e | .real e => some (.number e, [])
  | .array es => if depth = arrayKeyMax then some (.tooManyLevels, []) else elementsOffense (depth + 1) 0 es
  | .object ms => if depth = arrayKeyMax then some (.tooManyLevels, []) else membersOffense (depth + 1) ms

def elementsOffense (depth : Nat) : Nat → List Text → Option (Offense × List PathKey)
  | _, [] => none
  | i, e :: es =>
      if i = arrayKeyMax ∧ e.usable depth then some (.arrayTooLong, [])
      else match e.offense depth with
        | some (o, p) => some (o, .index (i + 1) :: p)
        | none => elementsOffense depth (i + 1) es

def membersOffense (depth : Nat) : List (Bytes × Text) → Option (Offense × List PathKey)
  | [] => none
  | (k, v) :: ms =>
      match v.offense depth with
      | some (o, p) => some (o, .key k :: p)
      | none => membersOffense depth ms

end

/-- The error for it, with a path where there is one. -/
def Offense.failure : Offense → List PathKey → Failure
  | .number .invalidValue, p => .dom .resultOutOfRange p
  | .number (.other code), p => .number code p
  | .arrayTooLong, p => .dom .arrayTooLong p
  | .tooManyLevels, _ => .tooManyLevels

/-- The part of a path that leads to the level the loop is in. -/
def Offense.outer : Offense → List PathKey → List PathKey
  | .number _, p => p.dropLast
  | _, p => p

/-- The path that the error has: on the outer levels the next element is taken
for the one that the loop is in. -/
def Offense.reported : Offense → List PathKey → List PathKey
  | .number _, p => p.dropLast.map PathKey.advance ++ p.getLast?.toList
  | _, p => p.map PathKey.advance

/-! Documents without offense. -/

theorem usable_of_inoffensive {t : Text} {depth : Nat} (h : t.offense depth = none) : t.usable depth = true := by
  cases t with
  | leaf a => rfl
  | integer e | real e => cases h
  | array es | object ms =>
      rw [Text.offense] at h
      rw [Text.usable, decide_eq_true_iff]
      intro hlevel
      rw [if_pos hlevel] at h
      cases h

mutual

theorem inoffensive : (t : Text) → {depth : Nat} → depth ≤ arrayKeyMax → t.offense depth = none →
    ∃ doc : Doc, doc.tokens = t.tokens ∧ doc.Short ∧ depth + doc.tree.depth ≤ arrayKeyMax
  | .leaf a, depth, hdepth, _ => ⟨.leaf a, rfl, trivial, by rw [Doc.tree, Tree.depth]; omega⟩
  | .integer _, _, _, h => nomatch h
  | .real _, _, _, h => nomatch h
  | .array es, depth, hdepth, h => by
      rw [Text.offense] at h
      by_cases hlevel : depth = arrayKeyMax
      · rw [if_pos hlevel] at h
        cases h
      rw [if_neg hlevel] at h
      obtain ⟨ds, htokens, hcount, hshort, hdeep⟩ := inoffensive_elements es 0 (by omega) (Nat.zero_le _) h
      refine ⟨.array ds, by rw [Doc.tokens, Text.tokens, htokens], ⟨by omega, hshort⟩, ?_⟩
      rw [Doc.tree, Tree.depth]
      omega
  | .object ms, depth, hdepth, h => by
      rw [Text.offense] at h
      by_cases hlevel : depth = arrayKeyMax
      · rw [if_pos hlevel] at h
        cases h
      rw [if_neg hlevel] at h
      obtain ⟨ds, htokens, hshort, hdeep⟩ := inoffensive_members ms (by omega) h
      refine ⟨.object ds, by rw [Doc.tokens, Text.tokens, htokens], hshort, ?_⟩
      rw [Doc.tree, Tree.depth]
      omega

theorem inoffensive_elements : (es : List Text) → (i : Nat) → {depth : Nat} → depth ≤ arrayKeyMax → i ≤ arrayKeyMax →
    elementsOffense depth i es = none →
    ∃ ds : List Doc, arrayTokens ds = textElements es ∧ i + ds.length ≤ arrayKeyMax ∧ shortElements ds ∧
      depth + (treeElements i ds).depth ≤ arrayKeyMax
  | [], i, depth, hdepth, hi, _ => ⟨[], rfl, hi, trivial, hdepth⟩
  | e :: es, i, depth, hdepth, hi, h => by
      rw [elementsOffense] at h
      by_cases hfull : i = arrayKeyMax ∧ e.usable depth = true
      · rw [if_pos hfull] at h
        cases h
      rw [if_neg hfull] at h
      cases he : e.offense depth with
      | some op =>
          rw [he] at h
          cases h
      | none =>
          rw [he] at h
          have husable : e.usable depth = true := usable_of_inoffensive he
          have hroom : i < arrayKeyMax := Nat.lt_of_le_of_ne hi fun hmax => hfull ⟨hmax, husable⟩
          obtain ⟨doc, htokens, hshort, hdeep⟩ := inoffensive e hdepth he
          obtain ⟨ds, htokens', hcount, hshort', hdeep'⟩ := inoffensive_elements es (i + 1) hdepth hroom h
          refine ⟨doc :: ds, by rw [arrayTokens, textElements, htokens, htokens'], by rw [List.length_cons]; omega,
            ⟨hshort, hshort'⟩, ?_⟩
          rw [treeElements, Forest.depth]
          omega

theorem inoffensive_members : (ms : List (Bytes × Text)) → {depth : Nat} → depth ≤ arrayKeyMax →
    membersOffense depth ms = none →
    ∃ ds : List (Bytes × Doc), objectTokens ds = textMembers ms ∧ shortMembers ds ∧
      depth + (treeMembers ds).depth ≤ arrayKeyMax
  | [], depth, hdepth, _ => ⟨[], rfl, trivial, hdepth⟩
  | (k, v) :: ms, depth, hdepth, h => by
      rw [membersOffense] at h
      cases hv : v.offense depth with
      | some op =>
          rw [hv] at h
          cases h
      | none =>
          rw [hv] at h
          obtain ⟨doc, htokens, hshort, hdeep⟩ := inoffensive v hdepth hv
          obtain ⟨ds, htokens', hshort', hdeep'⟩ := inoffensive_members ms hdepth h
          refine ⟨(k, doc) :: ds, by rw [objectTokens, textMembers, htokens, htokens'], ⟨hshort, hshort'⟩, ?_⟩
          rw [treeMembers, Forest.depth]
          omega

end

/-! Documents with one. -/

theorem pathInfo_eq (path : List PathKey) : pathInfo path = path.reverse.map PathKey.advance :=
  List.map_congr_left fun k _ => by cases k <;> rfl

theorem reported_number (e : NumberError) (p : List PathKey) (k : PathKey) :
    (Offense.number e).reported (p ++ [k]) = p.map PathKey.advance ++ [k] := by
  rw [Offense.reported, List.dropLast_concat, List.getLast?_concat]
  rfl

theorem onNumber_error {env : Env} {α : Type} {d : Decoder} {leaf : α → Scalar} (e : NumberError) :
    onNumber env d leaf (.error e) = some (.error ((Offense.number e).failure (pathInfo d.path))) := by
  cases e <;> rfl

section
variable {env : Env} {tree : Nat} {base : List LuaVal} {d : Decoder} {b : Build} {k : PathKey} {path : List PathKey}

theorem decodeTokens_error {t : Token} {e : Failure} (h : t.step env d = some (.error e)) (ts : List Token) :
    decodeTokens env (t :: ts) d = some (.error e) := by
  rw [decodeTokens, h]

theorem bad_number {t : Token} {e : NumberError} (hpath : d.path = k :: path)
    (hstep : t.step env d = some (.error ((Offense.number e).failure (pathInfo d.path)))) (ts : List Token) :
    decodeTokens env (t :: ts) d =
      some (.error ((Offense.number e).failure ((Offense.number e).reported (path.reverse ++ [k.advance])))) := by
  rw [decodeTokens_error hstep, hpath, pathInfo_eq, List.reverse_cons, List.map_append, List.map_singleton, reported_number]

/-- No level is opened beyond the last one that can be counted. -/
theorem too_deep (hlevel : d.path.length = arrayKeyMax) (array : Bool) : beginNode array d = some (.error .tooManyLevels) := by
  rw [beginNode, if_pos hlevel]

/-- No element is stored beyond the last one that can be counted. -/
theorem onLeaf_full (hpath : d.path = .index arrayKeyMax :: path) (a : Scalar) :
    onLeaf env d a = some (.error (.dom .arrayTooLong (pathInfo path))) := by
  simp only [onLeaf, hpath, if_pos]

theorem beginNode_full (hpath : d.path = .index arrayKeyMax :: path)
    (hlevel : d.path.length ≠ arrayKeyMax) (array : Bool) :
    beginNode array d = some (.error (.dom .arrayTooLong (pathInfo path))) := by
  rw [beginNode, if_neg hlevel, hpath]
  simp [attach, LuaState.newtable, LuaState.pushvalue, LuaState.push, LuaState.at?]

theorem element_full {t : Text} (hpath : d.path = .index arrayKeyMax :: path)
    (husable : t.usable d.path.length = true) (ts : List Token) :
    decodeTokens env (t.tokens ++ ts) d = some (.error (.dom .arrayTooLong (pathInfo path))) := by
  cases t with
  | leaf a => exact decodeTokens_error ((a.token_step).trans (onLeaf_full hpath a)) ts
  | integer e | real e => cases husable
  | array es => exact @decodeTokens_error env d .beginArray _ (beginNode_full hpath (of_decide_eq_true husable) true) _
  | object ms => exact @decodeTokens_error env d .beginObject _ (beginNode_full hpath (of_decide_eq_true husable) false) _

variable (env) in
mutual

/-- The error for a value in an open container. The levels the loop is in have
their next element counted already. -/
theorem offended : (t : Text) → {d : Decoder} → {b : Build} → {k : PathKey} → {path p : List PathKey} → {o : Offense} →
    Follows tree base d b → d.path = k :: path → (t.usable d.path.length = true → k.Room) →
    t.offense d.path.length = some (o, p) → ∀ ts,
    decodeTokens env (t.tokens ++ ts) d = some (.error (o.failure (o.reported (path.reverse ++ k.advance :: p))))
  | .leaf _, _, _, _, _, _, _, _, _, _, h => nomatch h
  | .integer e, d, b, k, path, p, o, _, hpath, _, h => by
      cases h
      exact bad_number hpath (onNumber_error e)
  | .real e, d, b, k, path, p, o, _, hpath, _, h => by
      cases h
      exact bad_number hpath (onNumber_error e)
  | .array es, d, b, k, path, p, o, hf, hpath, hroom, h => by
      intro ts
      rw [Text.offense] at h
      by_cases hlevel : d.path.length = arrayKeyMax
      · rw [if_pos hlevel] at h
        cases h
        exact @decodeTokens_error env d .beginArray _ (too_deep hlevel true) _
      rw [if_neg hlevel] at h
      have hdeep : d.path.length < arrayKeyMax := Nat.lt_of_le_of_ne hf.shallow hlevel
      obtain ⟨d₁, b₁, hbegin, -, hf₁, hpath₁⟩ := hf.open env hpath (hroom (decide_eq_true hlevel)) hdeep true
      have hlen : d₁.path.length = d.path.length + 1 := by rw [hpath₁, hpath, List.length_cons, List.length_cons, List.length_cons]
      have hrest := offended_elements es 0 hf₁ hpath₁ (Nat.zero_le _) (hlen ▸ h) (.endArray :: ts)
      have hstep : Token.beginArray.step env d = some (.ok d₁) := hbegin
      rw [List.reverse_cons, List.append_assoc, List.singleton_append] at hrest
      rw [Text.tokens, List.cons_append, List.append_assoc, List.singleton_append, decodeTokens_cons hstep, hrest]
  | .object ms, d, b, k, path, p, o, hf, hpath, hroom, h => by
      intro ts
      rw [Text.offense] at h
      by_cases hlevel : d.path.length = arrayKeyMax
      · rw [if_pos hlevel] at h
        cases h
        exact @decodeTokens_error env d .beginObject _ (too_deep hlevel false) _
      rw [if_neg hlevel] at h
      have hdeep : d.path.length < arrayKeyMax := Nat.lt_of_le_of_ne hf.shallow hlevel
      obtain ⟨d₁, b₁, hbegin, -, hf₁, hpath₁⟩ := hf.open env hpath (hroom (decide_eq_true hlevel)) hdeep false
      have hlen : d₁.path.length = d.path.length + 1 := by rw [hpath₁, hpath, List.length_cons, List.length_cons, List.length_cons]
      have hrest := offended_members ms hf₁ hpath₁ (hlen ▸ h) (.endObject :: ts)
      have hstep : Token.beginObject.step env d = some (.ok d₁) := hbegin
      rw [List.reverse_cons, List.append_assoc, List.singleton_append] at hrest
      rw [Text.tokens, List.cons_append, List.append_assoc, List.singleton_append, decodeTokens_cons hstep, hrest]

theorem offended_elements : (es : List Text) → (i : Nat) → {d : Decoder} → {b : Build} → {path p : List PathKey} → {o : Offense} →
    Follows tree base d b → d.path = .index i :: path → i ≤ arrayKeyMax →
    elementsOffense d.path.length i es = some (o, p) → ∀ ts,
    decodeTokens env (textElements es ++ ts) d = some (.error (o.failure (o.reported (path.reverse ++ p))))
  | [], _, _, _, _, _, _, _, _, _, h => nomatch h
  | e :: es, i, d, b, path, p, o, hf, hpath, hi, h => by
      intro ts
      rw [elementsOffense] at h
      rw [textElements, List.append_assoc]
      by_cases hfull : i = arrayKeyMax ∧ e.usable d.path.length = true
      · rw [if_pos hfull] at h
        cases h
        rw [element_full (hfull.1 ▸ hpath) hfull.2, List.append_nil, pathInfo_eq]
        rfl
      rw [if_neg hfull] at h
      have hroom : e.usable d.path.length = true → i < arrayKeyMax :=
        fun husable => Nat.lt_of_le_of_ne hi fun hmax => hfull ⟨hmax, husable⟩
      cases he : e.offense d.path.length with
      | some op =>
          obtain ⟨o', p'⟩ := op
          rw [he] at h
          cases h
          exact offended e hf hpath hroom he _
      | none =>
          rw [he] at h
          have hplace := hroom (usable_of_inoffensive he)
          obtain ⟨doc, htokens, hshort, hdeep⟩ := inoffensive e hf.shallow he
          obtain ⟨d₁, b₁, hrun, -, hf₁, hpath₁⟩ := follows_doc env doc hf hpath hplace hdeep hshort
          have hlen : d₁.path.length = d.path.length := by rw [hpath₁, hpath, List.length_cons, List.length_cons]
          rw [← htokens, decodeTokens_append hrun]
          exact offended_elements es (i + 1) hf₁ hpath₁ hplace (hlen ▸ h) ts

theorem offended_members : (ms : List (Bytes × Text)) → {d : Decoder} → {b : Build} → {k : PathKey} → {path p : List PathKey} →
    {o : Offense} → Follows tree base d b → d.path = k :: path →
    membersOffense d.path.length ms = some (o, p) → ∀ ts,
    decodeTokens env (textMembers ms ++ ts) d = some (.error (o.failure (o.reported (path.reverse ++ p))))
  | [], _, _, _, _, _, _, _, _, h => nomatch h
  | (key, v) :: ms, d, b, k, path, p, o, hf, hpath, h => by
      intro ts
      rw [membersOffense] at h
      have hkey : (Token.key key).step env d = some (.ok ⟨d.L, .key key :: path⟩) := by simp [Token.step, hpath]
      have hlen : (PathKey.key key :: path).length = d.path.length := by rw [hpath, List.length_cons, List.length_cons]
      have hf₀ : Follows tree base ⟨d.L, .key key :: path⟩ b :=
        ⟨hf.stack, hf.heap, hf.ready, hlen.trans hf.depth, hlen.le.trans hf.shallow⟩
      rw [textMembers, List.cons_append, List.append_assoc, decodeTokens_cons hkey]
      cases hv : v.offense d.path.length with
      | some op =>
          obtain ⟨o', p'⟩ := op
          rw [hv] at h
          cases h
          exact offended v hf₀ rfl (fun _ => trivial) (hlen.symm ▸ hv) _
      | none =>
          rw [hv] at h
          obtain ⟨doc, htokens, hshort, hdeep⟩ := inoffensive v hf.shallow hv
          obtain ⟨d₁, b₁, hrun, -, hf₁, hpath₁⟩ := follows_doc env doc hf₀ rfl trivial (by rw [← hlen] at hdeep; exact hdeep) hshort
          have hlen₁ : d₁.path.length = d.path.length := by rw [hpath₁, hpath, List.length_cons, List.length_cons]
          rw [← htokens, decodeTokens_append hrun]
          exact offended_members ms hf₁ hpath₁ (hlen₁ ▸ h) ts

end

end

/-! The whole document. -/

section
variable {env : Env} {L : LuaState}

theorem decode_offended (env : Env) (L : LuaState) {t : Text} {o : Offense} {p : List PathKey} (h : t.offense 0 = some (o, p)) :
    decode env L t.tokens none = some (.error (o.failure (o.reported p))) := by
  cases t with
  | leaf a => cases h
  | integer e =>
      cases h
      exact decode_eq nofun (@decodeTokens_error env _ (.integer (.error e)) _ (onNumber_error e) [])
  | real e =>
      cases h
      exact decode_eq nofun (@decodeTokens_error env _ (.real (.error e)) _ (onNumber_error e) [])
  | array es =>
      have hbegin : Token.beginArray.step env ⟨L.newtable.push .nil, []⟩ = some (.ok _) := beginNode_root true
      have hrest := offended_elements env es 0 (@follows_root L true) rfl (Nat.zero_le _) h [.endArray]
      exact decode_eq nofun (by rw [Text.tokens, decodeTokens_cons hbegin, hrest]; rfl)
  | object ms =>
      have hbegin : Token.beginObject.step env ⟨L.newtable.push .nil, []⟩ = some (.ok _) := beginNode_root false
      have hrest := offended_members env ms (@follows_root L false) rfl h [.endObject]
      exact decode_eq nofun (by rw [Text.tokens, decodeTokens_cons hbegin, hrest]; rfl)

theorem advance_eq_iff (p : List PathKey) : p.map PathKey.advance = p ↔ ∀ k ∈ p, ∃ s, k = .key s := by
  induction p with
  | nil => simp
  | cons k p ih =>
      rw [List.map_cons, List.cons_eq_cons, ih, List.forall_mem_cons]
      cases k with
      | key s => simp [PathKey.advance]
      | index n => simp [PathKey.advance]

theorem reported_iff {o : Offense} (ho : o ≠ .tooManyLevels) (p : List PathKey) :
    o.reported p = p ↔ ∀ k ∈ o.outer p, ∃ s, k = .key s := by
  cases o with
  | tooManyLevels => exact absurd rfl ho
  | arrayTooLong => exact advance_eq_iff p
  | number e =>
      rw [Offense.outer, ← advance_eq_iff]
      rcases List.eq_nil_or_concat p with rfl | ⟨p, k, rfl⟩
      · exact iff_of_true rfl rfl
      · rw [List.concat_eq_append, reported_number, List.dropLast_concat, List.append_left_inj]

theorem failure_injective {o : Offense} (ho : o ≠ .tooManyLevels) {p q : List PathKey} :
    o.failure p = o.failure q ↔ p = q := by
  cases o with
  | tooManyLevels => exact absurd rfl ho
  | arrayTooLong => simp [Offense.failure]
  | number e => cases e <;> simp [Offense.failure]

end

end Emilua.Json
