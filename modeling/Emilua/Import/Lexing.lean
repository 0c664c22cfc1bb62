import Emilua.Import.Loading

/-!
Which strings `require` takes for module ids, against the ids that its patterns
describe. A scanner is at the end when the byte after a match is a NUL, and the
one behind the string is such a byte, but so may be one of its own.
-/
namespace Emilua.Import
open Wire

def IsName (s : Bytes) : Prop := ∃ c cs, s = c :: cs ∧ isNameStart c = true ∧ ∀ d ∈ cs, isNameChar d = true

/-- `emilua_modnamepat` -/
abbrev Name := { s : Bytes // IsName s }

/-- An id: `./` and then any number of `../`, at least one `../`, components each
behind a slash, or one name. -/
inductive ModuleId where
  | dot (nparents : Nat) (name : Name)
  | parents (n : Nat) (name : Name)
  | slash (dirs : List Name) (name : Name)
  | package (name : Name)

def dots : Nat → Bytes
  | 0 => []
  | n + 1 => 46 :: 46 :: 47 :: dots n

def slashed : List Name → Bytes
  | [] => []
  | c :: cs => 47 :: (c.val ++ slashed cs)

def ModuleId.text : ModuleId → Bytes
  | .dot nparents name => 46 :: 47 :: (dots nparents ++ name.val)
  | .parents n name => dots (n + 1) ++ name.val
  | .slash dirs name => slashed dirs ++ 47 :: name.val
  | .package name => name.val

/-- What a scanner extracts. -/
inductive Lexed where
  | relative (nparents : Nat) (name : Bytes)
  | absolute (dirs : List Bytes) (name : Bytes)
  | external (id : Bytes)
deriving DecidableEq, Repr

def ModuleId.lexed : ModuleId → Lexed
  | .dot nparents name => .relative nparents name.val
  | .parents n name => .relative (n + 1) name.val
  | .slash dirs name => .absolute (dirs.map Subtype.val) name.val
  | .package name => .external name.val

/-- The scanner of an external id. The id is used as it is. -/
def parseExternal (id : Bytes) : Option Bytes :=
  match scanName id with
  | some (_, rest) => if atEnd rest then some id else none
  | none => none

/-- The part of `require` that scans the id. -/
def lexId (id : Bytes) : Except Raised Lexed :=
  let lexed := match kind id with
    | .relative => (parseDot 0 (dropLocal id)).map fun r => .relative r.1 r.2
    | .absolute => (parseSlash id).map fun r => .absolute r.1 r.2
    | .external => (parseExternal id).map .external
  match lexed with
  | some r => .ok r
  | none => raise .invalidModuleName (some id)

/-! `require` goes on with what is extracted, and raises what is raised here. -/

section
variable {app : App} {caches : Caches} {vm : Vm} {files : Files} {inTree : Path → Bool} {importer : Importer} {id : Bytes} {e : Raised}

theorem requireRelative_lexed (hkind : kind id = .relative) (h : lexId id = .error e) :
    requireRelative files importer id = .error e := by
  simp only [lexId, hkind] at h
  cases hparse : parseDot 0 (dropLocal id) with
  | none =>
      rw [hparse] at h
      rw [requireRelative, hparse]
      cases h
      rfl
  | some r =>
      rw [hparse] at h
      cases h

theorem requireAbsolute_lexed (hkind : kind id = .absolute) (h : lexId id = .error e) :
    requireAbsolute files inTree importer id = .error e := by
  simp only [lexId, hkind] at h
  cases hparse : parseSlash id with
  | none =>
      rw [hparse] at h
      rw [requireAbsolute, hparse]
      cases h
      rfl
  | some r =>
      rw [hparse] at h
      cases h

theorem requireExternal_lexed (hkind : kind id = .external) (h : lexId id = .error e) (context : ContextType) :
    requireExternal app caches vm context id = (.raised e, caches, vm) := by
  simp only [lexId, hkind, parseExternal] at h
  rw [requireExternal]
  cases hscan : scanName id with
  | none =>
      rw [hscan] at h
      cases h
      rfl
  | some r =>
      obtain ⟨name, rest⟩ := r
      rw [hscan] at h
      cases hend : atEnd rest with
      | true =>
          simp only [hend, if_true] at h
          cases h
      | false =>
          simp only [hend, Bool.false_eq_true, if_false] at h
          cases h
          simp only [hend, Bool.not_false, if_true]
          rfl

end

/-! The scanners. -/

section
variable {s rest : Bytes}

theorem scanName_iff {name : Bytes} : scanName s = some (name, rest) ↔
    IsName name ∧ s = name ++ rest ∧ ∀ c t, rest = c :: t → isNameChar c = false := by
  cases s with
  | nil =>
      constructor
      · intro h
        cases h
      · rintro ⟨⟨c, cs, rfl, -⟩, h, -⟩
        cases h
  | cons c s =>
      rw [scanName]
      constructor
      · intro h
        by_cases hc : isNameStart c = true
        · rw [if_pos hc, Option.some.injEq, Prod.mk.injEq] at h
          obtain ⟨rfl, rfl⟩ := h
          refine ⟨⟨c, _, rfl, hc, List.all_eq_true.mp List.all_takeWhile⟩, ?_, fun d t hd => ?_⟩
          · rw [List.cons_append, List.takeWhile_append_dropWhile]
          · have hnot := List.head_dropWhile_not (p := isNameChar) (l := s) (by rw [hd]; nofun)
            simpa [hd] using hnot
        · rw [if_neg hc] at h
          cases h
      · rintro ⟨⟨c', cs, rfl, hc, hcs⟩, h, hrest⟩
        obtain ⟨rfl, rfl⟩ := List.cons.inj h
        have hstop : rest.takeWhile isNameChar = [] ∧ rest.dropWhile isNameChar = rest := by
          cases rest with
          | nil => exact ⟨rfl, rfl⟩
          | cons d t => simp [hrest d t rfl]
        change (if isNameStart c = true then some (c :: (cs ++ rest).takeWhile isNameChar, (cs ++ rest).dropWhile isNameChar)
          else none) = some (c :: cs, rest)
        rw [if_pos hc, List.takeWhile_append_of_pos hcs, List.dropWhile_append_of_pos hcs, hstop.1, hstop.2, List.append_nil]

theorem atEnd_stops (h : atEnd rest = true) : ∀ c t, rest = c :: t → isNameChar c = false := by
  rintro c t rfl
  rw [beq_iff_eq.mp h]
  rfl

theorem not_dots_of_name {c : UInt8} (hc : isNameStart c = true) : c ≠ 46 := by
  rintro rfl
  cases hc

theorem parseDot_iff {k n : Nat} {name : Bytes} : parseDot k s = some (n, name) ↔
    ∃ j rest, n = k + j ∧ s = dots j ++ (name ++ rest) ∧ IsName name ∧ atEnd rest = true := by
  induction k, s using parseDot.induct with
  | case1 k s ih =>
      rw [parseDot, ih]
      constructor
      · rintro ⟨j, rest, rfl, rfl, hname, hend⟩
        exact ⟨j + 1, rest, by omega, rfl, hname, hend⟩
      · rintro ⟨j, rest, rfl, hs, hname, hend⟩
        cases j with
        | zero =>
            obtain ⟨c, cs, rfl, hc, -⟩ := hname
            exact absurd (List.cons.inj hs).1.symm (not_dots_of_name hc)
        | succ j =>
            simp only [dots, List.cons_append, List.cons.injEq, true_and] at hs
            exact ⟨j, rest, by omega, hs, hname, hend⟩
  | case2 k s hne c rest hscan hend =>
      rw [parseDot]
      · simp only [hscan, hend, if_true, Option.some.injEq, Prod.mk.injEq]
        obtain ⟨hname, hs, -⟩ := scanName_iff.mp hscan
        constructor
        · rintro ⟨rfl, rfl⟩
          exact ⟨0, rest, rfl, hs, hname, hend⟩
        · rintro ⟨j, rest', rfl, hs', hname', hend'⟩
          cases j with
          | zero =>
              have hscan' := scanName_iff.mpr ⟨hname', hs', atEnd_stops hend'⟩
              rw [hscan, Option.some.injEq, Prod.mk.injEq] at hscan'
              exact ⟨rfl, hscan'.1⟩
          | succ j => exact absurd hs' (hne _)
      · exact hne
  | case3 k s hne c rest hscan hend =>
      rw [parseDot]
      · simp only [hscan, hend]
        refine ⟨nofun, ?_⟩
        rintro ⟨j, rest', rfl, hs', hname', hend'⟩
        cases j with
        | zero =>
            have hscan' := scanName_iff.mpr ⟨hname', hs', atEnd_stops hend'⟩
            rw [hscan, Option.some.injEq, Prod.mk.injEq] at hscan'
            exact absurd (hscan'.2 ▸ hend') hend
        | succ j => exact absurd hs' (hne _)
      · exact hne
  | case4 k s hne hscan =>
      rw [parseDot]
      · simp only [hscan]
        refine ⟨nofun, ?_⟩
        rintro ⟨j, rest', rfl, hs', hname', hend'⟩
        cases j with
        | zero =>
            have hscan' := scanName_iff.mpr ⟨hname', hs', atEnd_stops hend'⟩
            rw [hscan] at hscan'
            cases hscan'
        | succ j => exact absurd hs' (hne _)
      · exact hne

theorem parseSlashFrom_none {fuel : Nat} (h : ∀ t, s ≠ 47 :: t) : parseSlashFrom fuel s = none := by
  unfold parseSlashFrom
  split
  · rename_i t
    exact absurd rfl (h t)
  · rfl

theorem slashed_slash (ds : List Name) (t : Bytes) : ∃ t', slashed ds ++ 47 :: t = 47 :: t' := by
  cases ds with
  | nil => exact ⟨t, rfl⟩
  | cons d ds => exact ⟨_, rfl⟩

theorem parseSlashFrom_iff {fuel : Nat} (hfuel : s.length ≤ fuel) {dirs : List Bytes} {name : Bytes} :
    parseSlashFrom fuel s = some (dirs, name) ↔
      ∃ (ds : List Name) (last : Name) (rest : Bytes), dirs = ds.map Subtype.val ∧ name = last.val ∧
        s = slashed ds ++ 47 :: (last.val ++ rest) ∧ atEnd rest = true := by
  induction fuel generalizing s dirs with
  | zero =>
      obtain rfl := List.length_eq_zero_iff.mp (Nat.le_zero.mp hfuel)
      refine ⟨nofun, ?_⟩
      rintro ⟨ds, last, rest, -, -, h, -⟩
      cases ds <;> cases h
  | succ fuel ih =>
      by_cases hslash : ∃ t, s = 47 :: t
      · obtain ⟨t, rfl⟩ := hslash
        rw [parseSlashFrom]
        constructor
        · intro h
          cases hscan : scanName t with
          | none =>
              rw [hscan] at h
              cases h
          | some r =>
              obtain ⟨c, rest⟩ := r
              obtain ⟨hname, rfl, -⟩ := scanName_iff.mp hscan
              simp only [hscan] at h
              cases hend : atEnd rest with
              | true =>
                  rw [if_pos hend, Option.some.injEq, Prod.mk.injEq] at h
                  exact ⟨[], ⟨c, hname⟩, rest, h.1.symm, h.2.symm, rfl, hend⟩
              | false =>
                  rw [if_neg (by rw [hend]; exact Bool.false_ne_true)] at h
                  obtain ⟨⟨ds, last⟩, hrest, heq⟩ := Option.map_eq_some_iff.mp h
                  cases heq
                  have hlen : rest.length ≤ fuel := by
                    simp only [List.length_cons, List.length_append] at hfuel
                    omega
                  obtain ⟨ds, last, rest', rfl, rfl, rfl, hend'⟩ := (ih hlen).mp hrest
                  refine ⟨⟨c, hname⟩ :: ds, last, rest', rfl, rfl, ?_, hend'⟩
                  rw [slashed, List.cons_append, List.append_assoc]
        · rintro ⟨ds, last, rest, rfl, rfl, h, hend⟩
          cases ds with
          | nil =>
              obtain rfl := (List.cons.inj h).2
              rw [scanName_iff.mpr ⟨last.property, rfl, atEnd_stops hend⟩]
              simp only [hend, if_true, List.map_nil]
          | cons d ds =>
              rw [slashed, List.cons_append, List.append_assoc] at h
              obtain rfl := (List.cons.inj h).2
              obtain ⟨t', ht'⟩ := slashed_slash ds (last.val ++ rest)
              have hstop : ∀ c u, slashed ds ++ 47 :: (last.val ++ rest) = c :: u → isNameChar c = false := by
                intro c u hc
                rw [ht'] at hc
                rw [← (List.cons.inj hc).1]
                rfl
              have hlen : (slashed ds ++ 47 :: (last.val ++ rest)).length ≤ fuel := by
                rw [List.length_cons, List.length_append] at hfuel
                omega
              have hmore : atEnd (slashed ds ++ 47 :: (last.val ++ rest)) = false := by
                rw [ht']
                rfl
              rw [scanName_iff.mpr ⟨d.property, rfl, hstop⟩]
              simp only [hmore, Bool.false_eq_true, if_false, (ih hlen).mpr ⟨ds, last, rest, rfl, rfl, rfl, hend⟩,
                Option.map_some, List.map_cons]
      · rw [parseSlashFrom_none (fun t ht => hslash ⟨t, ht⟩)]
        refine ⟨nofun, ?_⟩
        rintro ⟨ds, last, rest, -, -, rfl, -⟩
        exact absurd (slashed_slash ds _) hslash

/-- What a scanner makes of an id with something behind it. -/
def ModuleId.found (s : Bytes) : ModuleId → Lexed
  | .package _ => .external s
  | id => id.lexed

theorem kind_name {name : Bytes} (h : IsName name) (t : Bytes) : kind (name ++ t) = .external := by
  obtain ⟨c, cs, rfl, hc, -⟩ := h
  have hdot : c ≠ 46 := not_dots_of_name hc
  have hslash : c ≠ 47 := by
    rintro rfl
    cases hc
  rw [List.cons_append]
  unfold kind
  split
  · rename_i heq
    exact absurd (List.cons.inj heq).1 hdot
  · rename_i heq
    exact absurd (List.cons.inj heq).1 hslash
  · rfl

theorem lexId_ok {r : Lexed} (h : lexId s = .ok r) :
    ∃ (id : ModuleId) (rest : Bytes), s = id.text ++ rest ∧ atEnd rest = true ∧ r = id.found s := by
  cases hkind : kind s with
  | relative =>
      simp only [lexId, hkind] at h
      cases hparse : parseDot 0 (dropLocal s) with
      | none =>
          rw [hparse] at h
          cases h
      | some nr =>
          obtain ⟨n, name⟩ := nr
          rw [hparse] at h
          cases h
          obtain ⟨j, rest, rfl, hs, hname, hend⟩ := parseDot_iff.mp hparse
          rw [Nat.zero_add]
          by_cases hlocal : ∃ t, s = 46 :: 47 :: t
          · obtain ⟨t, rfl⟩ := hlocal
            rw [dropLocal] at hs
            exact ⟨.dot j ⟨name, hname⟩, rest, by rw [hs, ModuleId.text]; simp, hend, rfl⟩
          · have hdrop : dropLocal s = s := by
              unfold dropLocal
              split
              · rename_i t
                exact absurd ⟨t, rfl⟩ hlocal
              · rfl
            rw [hdrop] at hs
            cases j with
            | zero =>
                rw [hs, dots, List.nil_append, kind_name hname] at hkind
                cases hkind
            | succ n => exact ⟨.parents n ⟨name, hname⟩, rest, by rw [hs, ModuleId.text, List.append_assoc], hend, rfl⟩
  | absolute =>
      simp only [lexId, hkind] at h
      cases hparse : parseSlash s with
      | none =>
          rw [hparse] at h
          cases h
      | some dl =>
          obtain ⟨dirs, name⟩ := dl
          rw [hparse] at h
          cases h
          obtain ⟨ds, last, rest, rfl, rfl, hs, hend⟩ := (parseSlashFrom_iff (Nat.le_refl _)).mp hparse
          exact ⟨.slash ds last, rest, by rw [ModuleId.text, List.append_assoc, List.cons_append, ← hs], hend, rfl⟩
  | external =>
      simp only [lexId, hkind, parseExternal] at h
      cases hscan : scanName s with
      | none =>
          rw [hscan] at h
          cases h
      | some nr =>
          obtain ⟨name, rest⟩ := nr
          rw [hscan] at h
          obtain ⟨hname, hs, -⟩ := scanName_iff.mp hscan
          cases hend : atEnd rest with
          | true =>
              simp only [hend, if_true, Option.map_some] at h
              cases h
              exact ⟨.package ⟨name, hname⟩, rest, hs, hend, rfl⟩
          | false =>
              simp only [hend, Bool.false_eq_true, if_false] at h
              cases h

theorem lexId_text (id : ModuleId) (hend : atEnd rest = true) :
    lexId (id.text ++ rest) = .ok (id.found (id.text ++ rest)) := by
  cases id with
  | dot n name =>
      have hparse : parseDot 0 (dots n ++ (name.val ++ rest)) = some (n, name.val) :=
        parseDot_iff.mpr ⟨n, rest, (Nat.zero_add n).symm, rfl, name.property, hend⟩
      simp only [ModuleId.text, List.cons_append, List.append_assoc, lexId, kind, dropLocal, hparse, Option.map_some,
        ModuleId.found, ModuleId.lexed]
  | parents n name =>
      have hparse : parseDot 0 (dots (n + 1) ++ (name.val ++ rest)) = some (n + 1, name.val) :=
        parseDot_iff.mpr ⟨n + 1, rest, (Nat.zero_add _).symm, rfl, name.property, hend⟩
      simp only [ModuleId.text, List.append_assoc, ModuleId.found, ModuleId.lexed]
      rw [dots, List.cons_append, List.cons_append, List.cons_append] at hparse ⊢
      have hdrop (t : Bytes) : dropLocal (46 :: 46 :: 47 :: t) = 46 :: 46 :: 47 :: t := rfl
      simp only [lexId, kind, hdrop, hparse, Option.map_some]
  | slash dirs name =>
      have hparse : parseSlash (slashed dirs ++ 47 :: (name.val ++ rest)) = some (dirs.map Subtype.val, name.val) :=
        (parseSlashFrom_iff (Nat.le_refl _)).mpr ⟨dirs, name, rest, rfl, rfl, rfl, hend⟩
      have hkind : kind (slashed dirs ++ 47 :: (name.val ++ rest)) = .absolute := by
        obtain ⟨t, ht⟩ := slashed_slash dirs (name.val ++ rest)
        rw [ht]
        rfl
      simp only [ModuleId.text, List.append_assoc, List.cons_append, lexId, hkind, hparse, Option.map_some, ModuleId.found,
        ModuleId.lexed]
  | package name =>
      simp only [ModuleId.text, lexId, kind_name name.property rest, parseExternal,
        scanName_iff.mpr ⟨name.property, rfl, atEnd_stops hend⟩, hend, if_true, Option.map_some, ModuleId.found]

/-! Ids hold no NUL. -/

theorem zero_not_mem_name {name : Bytes} (h : IsName name) : 0 ∉ name := by
  obtain ⟨c, cs, rfl, hc, hcs⟩ := h
  intro hmem
  rcases List.mem_cons.mp hmem with rfl | hmem
  · cases hc
  · exact absurd (hcs 0 hmem) (by decide)

theorem zero_not_mem_dots (n : Nat) : 0 ∉ dots n := by
  induction n with
  | zero => nofun
  | succ n ih => simpa [dots] using ih

theorem zero_not_mem_slashed (ds : List Name) : 0 ∉ slashed ds := by
  induction ds with
  | nil => nofun
  | cons d ds ih => simpa [slashed] using ⟨zero_not_mem_name d.property, ih⟩

theorem ModuleId.zero_not_mem (id : ModuleId) : 0 ∉ id.text := by
  cases id with
  | dot n name => simpa [text] using ⟨zero_not_mem_dots n, zero_not_mem_name name.property⟩
  | parents n name => simpa [text] using ⟨zero_not_mem_dots (n + 1), zero_not_mem_name name.property⟩
  | slash dirs name => simpa [text] using ⟨zero_not_mem_slashed dirs, zero_not_mem_name name.property⟩
  | package name => exact zero_not_mem_name name.property

/-- The part of a string before its first NUL. -/
def beforeNul (s : Bytes) : Bytes := s.takeWhile (· != 0)

theorem beforeNul_append {t : Bytes} (ht : 0 ∉ t) (hend : atEnd rest = true) : beforeNul (t ++ rest) = t := by
  have hall : ∀ c ∈ t, (c != 0) = true := fun c hc => bne_iff_ne.mpr fun h => ht (h ▸ hc)
  rw [beforeNul, List.takeWhile_append_of_pos hall]
  cases rest with
  | nil => rw [List.takeWhile_nil, List.append_nil]
  | cons c u =>
      obtain rfl := beq_iff_eq.mp hend
      rw [List.takeWhile_cons, if_neg (by decide), List.append_nil]

theorem beforeNul_split (s : Bytes) : ∃ rest, s = beforeNul s ++ rest ∧ atEnd rest = true := by
  refine ⟨s.dropWhile (· != 0), (List.takeWhile_append_dropWhile).symm, ?_⟩
  cases hdrop : s.dropWhile (· != 0) with
  | nil => rfl
  | cons c t =>
      have hnot := List.head_dropWhile_not (fun c : UInt8 => c != 0) (l := s) (by rw [hdrop]; nofun)
      simpa [hdrop, atEnd] using hnot

theorem beforeNul_self (h : 0 ∉ s) : beforeNul s = s := by
  have hend : atEnd [] = true := rfl
  have happend := beforeNul_append h hend
  rwa [List.append_nil] at happend

end

theorem lexId_raises {s : Bytes} (h : ∀ r, lexId s ≠ .ok r) : lexId s = raise .invalidModuleName (some s) := by
  rw [lexId] at h ⊢
  split
  · rename_i r heq
    simp only [heq] at h
    exact absurd rfl (h r)
  · rfl

theorem ModuleId.found_text (id : ModuleId) : id.found id.text = id.lexed := by
  cases id <;> rfl

/-- The strings that are taken for ids are the ids, with what they say, exactly
if no id is followed by a NUL. -/
theorem lexId_iff (s : Bytes) :
    ((∀ r, lexId s = .ok r ↔ ∃ id : ModuleId, id.text = s ∧ id.lexed = r) ∧
      ((∀ id : ModuleId, id.text ≠ s) → lexId s = raise .invalidModuleName (some s))) ↔
      (0 ∈ s → ∀ id : ModuleId, id.text ≠ beforeNul s) := by
  obtain ⟨rest, hsplit, hend⟩ := beforeNul_split s
  constructor
  · rintro ⟨hlexed, -⟩ hzero id hid
    have hok := lexId_text id hend
    rw [hid, ← hsplit] at hok
    obtain ⟨id', hid', -⟩ := (hlexed _).mp hok
    exact id'.zero_not_mem (hid' ▸ hzero)
  · intro hcond
    by_cases hzero : 0 ∈ s
    · have hnone : ∀ r, lexId s ≠ .ok r := by
        intro r hr
        obtain ⟨id, rest', hs, hend', -⟩ := lexId_ok hr
        apply hcond hzero id
        rw [hs, beforeNul_append id.zero_not_mem hend']
      refine ⟨fun r => ⟨fun hr => absurd hr (hnone r), ?_⟩, fun _ => lexId_raises hnone⟩
      rintro ⟨id, rfl, -⟩
      exact absurd hzero id.zero_not_mem
    · refine ⟨fun r => ⟨fun hr => ?_, ?_⟩, fun hno => lexId_raises fun r hr => ?_⟩
      · obtain ⟨id, rest', hs, hend', rfl⟩ := lexId_ok hr
        have htext : id.text = s := by rw [← beforeNul_self hzero, hs, beforeNul_append id.zero_not_mem hend']
        exact ⟨id, htext, by rw [← htext, id.found_text]⟩
      · rintro ⟨id, rfl, rfl⟩
        have hend' : atEnd [] = true := rfl
        have hok := lexId_text id hend'
        rwa [List.append_nil, id.found_text] at hok
      · obtain ⟨id, rest', hs, hend', -⟩ := lexId_ok hr
        apply hno id
        rw [← beforeNul_self hzero, hs, beforeNul_append id.zero_not_mem hend']

/-- `require('a\0b')` looks for a package, though the string is no id. -/
theorem nul_in_id : lexId [97, 0, 98] = .ok (.external [97, 0, 98]) ∧ ∀ id : ModuleId, id.text ≠ [97, 0, 98] :=
  ⟨rfl, fun id hid => id.zero_not_mem (by rw [hid]; decide)⟩

end Emilua.Import
