import Mathlib.Data.List.Chain
import Emilua.Bytes.Fields

/-!
The matches of a regex in a subject, leftmost first and without overlaps, and
those that `regex_patsplit` goes through.
-/
namespace Emilua.Bytes

/-- What a regex matches in a subject of `n` bytes: at each position the match
that it prefers and the one it prefers among those that are not empty. -/
structure Matcher (n : Nat) where
  matchAt : Nat → Option (Range n)
  wideAt : Nat → Option (Range n)
  matchAt_first : ∀ p x, matchAt p = some x → x.first = p
  wideAt_first : ∀ p x, wideAt p = some x → x.first = p
  wideAt_wide : ∀ p x, wideAt p = some x → x.first < x.second
  wideAt_of_matchAt : ∀ p x, matchAt p = some x → x.first < x.second → wideAt p = some x
  matchAt_of_wideAt : ∀ p x, wideAt p = some x → ∃ y, matchAt p = some y

section
variable {n : Nat} (M : Matcher n)

/-- The leftmost match at or after a position. -/
def Matcher.leftmost (p : Nat) : Option (Range n) := (List.range' p (n + 1 - p)).findSome? M.matchAt

/-- The match that comes after `x`: an empty one where `x` ends is not taken. -/
def Matcher.after (x : Range n) : Option (Range n) := (M.wideAt x.second).or (M.leftmost (x.second + 1))

variable {M} {p : Nat} {x y z : Range n}

theorem leftmost_some (h : M.leftmost p = some y) :
    p ≤ y.first ∧ M.matchAt y.first = some y ∧ ∀ q, p ≤ q → q < y.first → M.matchAt q = none := by
  obtain ⟨before, q, rest, hsplit, hq, hbefore⟩ := List.findSome?_eq_some_iff.mp h
  have hfirst := M.matchAt_first q y hq
  have hpos : q = p + before.length := by
    have hlen : before.length < (List.range' p (n + 1 - p)).length := by
      rw [hsplit, List.length_append, List.length_cons]
      omega
    have hget : (List.range' p (n + 1 - p))[before.length] = q := by simp [hsplit]
    rw [List.getElem_range'] at hget
    omega
  refine ⟨by omega, hfirst ▸ hq, fun i hi hlt => hbefore i ?_⟩
  have hmem : i ∈ List.range' p (n + 1 - p) := by
    rw [List.mem_range'_1]
    have := y.first_le.trans y.second_le
    omega
  rw [hsplit, List.mem_append] at hmem
  refine hmem.resolve_right fun hlater => ?_
  have hsorted : (before ++ q :: rest).Pairwise (· < ·) := hsplit ▸ List.pairwise_lt_range'
  rcases List.mem_cons.mp hlater with rfl | hrest
  · omega
  · have := (List.pairwise_cons.mp (List.pairwise_append.mp hsorted).2.1).1 i hrest
    omega

theorem leftmost_none (h : M.leftmost p = none) {q : Nat} (hq : p ≤ q) : M.matchAt q = none := by
  cases hmatch : M.matchAt q with
  | none => rfl
  | some z =>
      have hfirst := M.matchAt_first q z hmatch
      have hle := z.first_le.trans z.second_le
      have hno := List.findSome?_eq_none_iff.mp h q (by rw [List.mem_range'_1]; omega)
      exact absurd hno (by rw [hmatch]; nofun)

theorem leftmost_eq_some (hle : p ≤ y.first) (hmatch : M.matchAt y.first = some y)
    (hbefore : ∀ q, p ≤ q → q < y.first → M.matchAt q = none) : M.leftmost p = some y := by
  cases hleft : M.leftmost p with
  | none =>
      rw [leftmost_none hleft hle] at hmatch
      cases hmatch
  | some z =>
      obtain ⟨hz, hmatch', hbefore'⟩ := leftmost_some hleft
      rcases Nat.lt_trichotomy y.first z.first with hlt | heq | hgt
      · rw [hbefore' _ hle hlt] at hmatch
        cases hmatch
      · rw [← heq, hmatch] at hmatch'
        exact hmatch'.symm
      · rw [hbefore _ hz hgt] at hmatch'
        cases hmatch'

theorem leftmost_eq_none (h : ∀ q, p ≤ q → M.matchAt q = none) : M.leftmost p = none := by
  cases hleft : M.leftmost p with
  | none => rfl
  | some z =>
      obtain ⟨hz, hmatch, -⟩ := leftmost_some hleft
      rw [h _ hz] at hmatch
      cases hmatch

theorem after_cases (h : M.after x = some y) :
    M.wideAt x.second = some y ∨ (M.wideAt x.second = none ∧ M.leftmost (x.second + 1) = some y) := by
  unfold Matcher.after at h
  cases hwide : M.wideAt x.second with
  | none =>
      rw [hwide] at h
      exact .inr ⟨rfl, h⟩
  | some z =>
      rw [hwide] at h
      exact .inl h

theorem after_none (h : M.after x = none) : M.wideAt x.second = none ∧ M.leftmost (x.second + 1) = none :=
  Option.or_eq_none_iff.mp h

theorem after_lt (h : M.after x = some y) : x.second < y.second := by
  rcases after_cases h with hwide | ⟨-, hleft⟩
  · have hfirst := M.wideAt_first _ _ hwide
    have hlt := M.wideAt_wide _ _ hwide
    omega
  · obtain ⟨hle, -, -⟩ := leftmost_some hleft
    have := y.first_le
    omega

theorem after_end (h : x.second = n) : M.after x = none := by
  cases hafter : M.after x with
  | none => rfl
  | some y =>
      have hlt := after_lt hafter
      have hle := y.second_le
      omega

theorem after_of_wideAt (h : M.wideAt x.second = some y) : M.after x = some y := by
  rw [Matcher.after, h]
  rfl

theorem after_eq_some_iff (hy : y.first = x.second) : M.after x = some y ↔ M.wideAt x.second = some y := by
  refine ⟨fun hafter => ?_, after_of_wideAt⟩
  rcases after_cases hafter with hwide | ⟨-, hleft⟩
  · exact hwide
  · have hle := (leftmost_some hleft).1
    omega

/-- No adjacent match is lost where none begins. -/
theorem leftmost_eq_after_iff : M.leftmost (x.second + 1) = M.after x ↔ M.wideAt x.second = none := by
  refine ⟨fun heq => ?_, fun hwide => by rw [Matcher.after, hwide, Option.none_or]⟩
  cases hwide : M.wideAt x.second with
  | none => rfl
  | some y =>
      rw [after_of_wideAt hwide] at heq
      have hle := (leftmost_some heq).1
      have hfirst := M.wideAt_first _ _ hwide
      omega

theorem wideAt_none_iff : M.wideAt x.second = none ↔ ∀ y, M.after x = some y → ¬ y.first = x.second := by
  refine ⟨fun hwide y hafter hfirst => ?_, fun h => ?_⟩
  · rw [after_eq_some_iff hfirst, hwide] at hafter
    cases hafter
  · cases hwide : M.wideAt x.second with
    | none => rfl
    | some y => exact absurd (M.wideAt_first _ _ hwide) (h y (after_of_wideAt hwide))

variable (M)

/-- A match and those after it. -/
def Matcher.allFrom (x : Range n) : List (Range n) :=
  x :: match _h : M.after x with
    | none => []
    | some y => allFrom y
termination_by n - x.second
decreasing_by
  have hlt := after_lt _h
  have hle := y.second_le
  omega

def Matcher.allMatches : List (Range n) := (M.leftmost 0).elim [] M.allFrom

/-- `y` begins where a match that is not empty ends. -/
def Touch (x y : Range n) : Prop := x.first < x.second ∧ y.first = x.second

/-- Matches in order and without overlaps, an empty one not directly after
another, such that nothing else is skipped: where the regex matches is where
one of them begins, lies inside one, or is the end of one and the match empty. -/
structure Matcher.Lists (xs : List (Range n)) : Prop where
  ordered : xs.IsChain fun x y => x.second ≤ y.first ∧ (y.first = x.second → y.first < y.second)
  found : ∀ x ∈ xs, M.matchAt x.first = some x ∨ M.wideAt x.first = some x
  unskipped : ∀ p z, M.matchAt p = some z →
    ∃ x ∈ xs, p = x.first ∨ (x.first < p ∧ p < x.second) ∨ (p = x.second ∧ M.wideAt p = none)

variable {M}

theorem allFrom_eq (x : Range n) : M.allFrom x = x :: (M.after x).elim [] M.allFrom := by
  rw [Matcher.allFrom]
  cases M.after x <;> rfl

theorem allFrom_none (h : M.after x = none) : M.allFrom x = [x] := by
  rw [allFrom_eq, h]
  rfl

theorem allFrom_some (h : M.after x = some y) : M.allFrom x = x :: M.allFrom y := by
  rw [allFrom_eq, h]
  rfl

theorem allFrom_head (x : Range n) : (M.allFrom x).head? = some x := by
  rw [allFrom_eq]
  rfl

theorem isChain_allFrom {r : Range n → Range n → Prop} (h : M.after x = some y) :
    (M.allFrom x).IsChain r ↔ r x y ∧ (M.allFrom y).IsChain r := by
  rw [allFrom_some h, allFrom_eq y, List.isChain_cons_cons]

/-- What holds of a match and goes on to the one after it holds of all. -/
theorem allFrom_induction {P : Range n → List (Range n) → Prop} (hlast : ∀ x, M.after x = none → P x [x])
    (hnext : ∀ x y, M.after x = some y → P y (M.allFrom y) → P x (x :: M.allFrom y)) (x : Range n) : P x (M.allFrom x) := by
  induction hk : n - x.second using Nat.strong_induction_on generalizing x with
  | _ k ih =>
      cases hafter : M.after x with
      | none =>
          rw [allFrom_none hafter]
          exact hlast x hafter
      | some y =>
          rw [allFrom_some hafter]
          have hlt := after_lt hafter
          have hle := y.second_le
          exact hnext x y hafter (ih (n - y.second) (by omega) y rfl)

theorem after_ordered (h : M.after x = some y) : x.second ≤ y.first ∧ (y.first = x.second → y.first < y.second) := by
  rcases after_cases h with hwide | ⟨-, hleft⟩
  · exact ⟨(M.wideAt_first _ _ hwide).ge, fun _ => M.wideAt_wide _ _ hwide⟩
  · obtain ⟨hle, -, -⟩ := leftmost_some hleft
    exact ⟨by omega, fun heq => by omega⟩

theorem after_found (h : M.after x = some y) : M.matchAt y.first = some y ∨ M.wideAt y.first = some y := by
  rcases after_cases h with hwide | ⟨-, hleft⟩
  · have hfirst := M.wideAt_first _ _ hwide
    exact .inr (hfirst ▸ hwide)
  · exact .inl (leftmost_some hleft).2.1

theorem allFrom_ordered (x : Range n) :
    (M.allFrom x).IsChain fun x y => x.second ≤ y.first ∧ (y.first = x.second → y.first < y.second) := by
  refine allFrom_induction (fun x _ => List.isChain_singleton x) (fun x y hafter ih => ?_) x
  rw [← allFrom_some hafter, isChain_allFrom hafter]
  exact ⟨after_ordered hafter, ih⟩

theorem allFrom_found (hx : M.matchAt x.first = some x ∨ M.wideAt x.first = some x) :
    ∀ z ∈ M.allFrom x, M.matchAt z.first = some z ∨ M.wideAt z.first = some z := by
  refine allFrom_induction (M := M) (P := fun x xs => (M.matchAt x.first = some x ∨ M.wideAt x.first = some x) →
    ∀ z ∈ xs, M.matchAt z.first = some z ∨ M.wideAt z.first = some z) (fun x _ hx z hz => ?_) (fun x y hafter ih hx z hz => ?_) x hx
  · rw [List.mem_singleton.mp hz]
    exact hx
  · rcases List.mem_cons.mp hz with rfl | hlater
    · exact hx
    · exact ih (after_found hafter) z hlater

/-- Where a match is found after the beginning of one of the list. -/
theorem allFrom_unskipped (x : Range n) : ∀ p z, x.first ≤ p → M.matchAt p = some z →
    ∃ y ∈ M.allFrom x, p = y.first ∨ (y.first < p ∧ p < y.second) ∨ (p = y.second ∧ M.wideAt p = none) := by
  refine allFrom_induction (M := M) (P := fun x xs => ∀ p z, x.first ≤ p → M.matchAt p = some z →
    ∃ y ∈ xs, p = y.first ∨ (y.first < p ∧ p < y.second) ∨ (p = y.second ∧ M.wideAt p = none))
    (fun x hlast p z hp hz => ?_) (fun x y hafter ih p z hp hz => ?_) x
  · obtain ⟨hwide, hleft⟩ := after_none hlast
    refine ⟨x, List.mem_singleton_self x, ?_⟩
    rcases Nat.lt_trichotomy p x.second with hlt | rfl | hgt
    · omega
    · exact .inr (.inr ⟨rfl, hwide⟩)
    · have hno := leftmost_none hleft hgt
      rw [hz] at hno
      cases hno
  · rcases Nat.lt_or_ge p y.first with hlt | hge
    · refine ⟨x, List.mem_cons_self, ?_⟩
      rcases Nat.lt_or_ge p x.second with hin | hout
      · omega
      · rcases after_cases hafter with hwide | ⟨hwide, hleft⟩
        · have hfirst := M.wideAt_first _ _ hwide
          omega
        · obtain ⟨hle, -, hbefore⟩ := leftmost_some hleft
          rcases Nat.eq_or_lt_of_le hout with rfl | hgt
          · exact .inr (.inr ⟨rfl, hwide⟩)
          · have hno := hbefore p hgt hlt
            rw [hz] at hno
            cases hno
    · obtain ⟨w, hw, hat⟩ := ih p z hge hz
      exact ⟨w, List.mem_cons_of_mem _ hw, hat⟩

/-- `allMatches` are all the matches. -/
theorem allMatches_lists (M : Matcher n) : M.Lists M.allMatches := by
  unfold Matcher.allMatches
  cases hfirst : M.leftmost 0 with
  | none => exact ⟨.nil, nofun, fun p z hz => by rw [leftmost_none hfirst (Nat.zero_le p)] at hz; cases hz⟩
  | some x =>
      obtain ⟨-, hmatch, hbefore⟩ := leftmost_some hfirst
      refine ⟨allFrom_ordered x, allFrom_found (.inl hmatch), fun p z hz => ?_⟩
      rcases Nat.lt_or_ge p x.first with hlt | hge
      · rw [hbefore p (Nat.zero_le p) hlt] at hz
        cases hz
      · exact allFrom_unskipped x p z hge hz

end

/-! The loop. -/

section
variable {R : Type} (e : Engine R) (r : R) (s : List UInt8)

/-- `std::regex_search` finds what `M` says, where it is told whether there are
characters before the first one. -/
structure Faithful (M : Matcher s.length) : Prop where
  start : e.search r s 0 .default = M.leftmost 0
  later : ∀ p, 0 < p → p ≤ s.length → e.search r s p ⟨true, false, false⟩ = M.leftmost p
  wide_start : e.search r s 0 ⟨false, true, true⟩ = M.wideAt 0
  wide_later : ∀ p, 0 < p → p ≤ s.length → e.search r s p ⟨true, true, true⟩ = M.wideAt p
  continuous : ∀ p prevAvail notNull y, e.search r s p ⟨prevAvail, notNull, true⟩ = some y → y.first = p

/-- The match that the loop goes on with after `x`. -/
def patsplitNext (x : Range s.length) (prevAvail : Bool) : Option (Range s.length × Bool) :=
  if x.second = s.length then none
  else
    match if x.first = x.second then e.search r s x.second ⟨prevAvail, true, true⟩ else none with
    | some y => some (y, prevAvail)
    | none => (e.search r s (x.second + 1) ⟨true, false, false⟩).map (·, true)

/-- The search after an empty match sees what is before it. -/
def Seen (M : Matcher s.length) (x : Range s.length) (prevAvail : Bool) : Prop :=
  x.first = x.second → x.second < s.length → e.search r s x.second ⟨prevAvail, true, true⟩ = M.wideAt x.second

variable {e r s} {M : Matcher s.length} {x y z : Range s.length} {prevAvail : Bool}

theorem patsplitLoop_eq : patsplitLoop e r s x ⟨prevAvail, false, false⟩ =
    x :: (patsplitNext e r s x prevAvail).elim [] fun y => patsplitLoop e r s y.1 ⟨y.2, false, false⟩ := by
  rw [patsplitLoop, patsplitNext]
  by_cases hend : x.second = s.length
  · rw [if_pos hend, if_pos hend]
    rfl
  · rw [if_neg hend, if_neg hend]
    cases (if x.first = x.second then e.search r s x.second ⟨prevAvail, true, true⟩ else none) with
    | some y => rfl
    | none => cases e.search r s (x.second + 1) ⟨true, false, false⟩ <;> rfl

theorem Faithful.seen_later (h : Faithful e r s M) (hpos : 0 < x.second) : Seen e r s M x true := fun _ _ =>
  h.wide_later x.second hpos x.second_le

theorem seen_wide (hwide : x.first < x.second) : Seen e r s M x prevAvail := fun hempty _ => by omega

/-- The loop goes on with the match that comes next, unless it is an adjacent
one, or not seen. -/
theorem Faithful.next_iff (h : Faithful e r s M) : (patsplitNext e r s x prevAvail).map Prod.fst = M.after x ↔
    Seen e r s M x prevAvail ∧ ∀ y, M.after x = some y → ¬ Touch x y := by
  rw [patsplitNext]
  by_cases hend : x.second = s.length
  · rw [if_pos hend, after_end hend]
    exact ⟨fun _ => ⟨fun _ hlt => by omega, nofun⟩, fun _ => rfl⟩
  · rw [if_neg hend]
    have hle := x.second_le
    have hlater : Option.map Prod.fst ((e.search r s (x.second + 1) ⟨true, false, false⟩).map (·, true)) =
        M.leftmost (x.second + 1) := by
      rw [h.later _ (Nat.succ_pos _) (by omega), Option.map_map]
      exact congrFun Option.map_id _
    by_cases hempty : x.first = x.second
    · rw [if_pos hempty]
      have hseen : Seen e r s M x prevAvail ↔ e.search r s x.second ⟨prevAvail, true, true⟩ = M.wideAt x.second :=
        ⟨fun h => h hempty (by omega), fun h _ _ => h⟩
      have hapart : ∀ y, M.after x = some y → ¬ Touch x y := fun y _ htouch => by
        have hwide := htouch.1
        omega
      rw [hseen, and_iff_left hapart]
      cases hcall : e.search r s x.second ⟨prevAvail, true, true⟩ with
      | some y =>
          have hfirst := h.continuous _ _ _ _ hcall
          rw [eq_comm, eq_comm (a := some y)]
          exact after_eq_some_iff hfirst
      | none =>
          rw [hlater, leftmost_eq_after_iff, eq_comm]
    · rw [if_neg hempty, hlater, leftmost_eq_after_iff]
      have hwide : x.first < x.second := Nat.lt_of_le_of_ne x.first_le hempty
      rw [and_iff_right (seen_wide hwide), wideAt_none_iff]
      exact forall₂_congr fun y _ => by rw [Touch, and_iff_right hwide]

theorem patsplitNext_cases {seen : Bool} (h : patsplitNext e r s x prevAvail = some (y, seen)) :
    e.search r s x.second ⟨prevAvail, true, true⟩ = some y ∨
      (e.search r s (x.second + 1) ⟨true, false, false⟩ = some y ∧ seen = true) := by
  rw [patsplitNext] at h
  split at h
  · cases h
  · split at h
    · rename_i z hcall
      cases h
      split at hcall
      · exact .inl hcall
      · cases hcall
    · obtain ⟨z, hcall, hz⟩ := Option.map_eq_some_iff.mp h
      cases hz
      exact .inr ⟨hcall, rfl⟩

theorem patsplitNext_lt {seen : Bool} (h : patsplitNext e r s x prevAvail = some (y, seen)) : x.second < y.second := by
  rcases patsplitNext_cases h with hcall | ⟨hcall, -⟩
  · exact Nat.lt_of_le_of_lt (e.search_from _ _ _ _ _ hcall) (e.search_notNull _ _ _ _ _ hcall rfl)
  · exact Nat.lt_of_lt_of_le (e.search_from _ _ _ _ _ hcall) y.first_le

theorem Faithful.next_seen (h : Faithful e r s M) {seen : Bool} (hnext : patsplitNext e r s x prevAvail = some (y, seen)) :
    Seen e r s M y seen := by
  rcases patsplitNext_cases hnext with hcall | ⟨-, rfl⟩
  · exact seen_wide (e.search_notNull _ _ _ _ _ hcall rfl)
  · exact h.seen_later (Nat.zero_lt_of_lt (patsplitNext_lt hnext))

theorem Faithful.loop_iff (h : Faithful e r s M) : patsplitLoop e r s x ⟨prevAvail, false, false⟩ = M.allFrom x ↔
    Seen e r s M x prevAvail ∧ (M.allFrom x).IsChain fun x y => ¬ Touch x y := by
  induction hk : s.length - x.second using Nat.strong_induction_on generalizing x prevAvail with
  | _ k ih =>
      have hstep : ∀ {y seen}, M.after x = some y → (patsplitLoop e r s y ⟨seen, false, false⟩ = M.allFrom y ↔
          Seen e r s M y seen ∧ (M.allFrom y).IsChain fun x y => ¬ Touch x y) := by
        intro y seen hafter
        have hlt := after_lt hafter
        have hle := y.second_le
        exact ih (s.length - y.second) (by omega) rfl
      have hnext_iff : (patsplitNext e r s x prevAvail).map Prod.fst = M.after x ↔
          Seen e r s M x prevAvail ∧ ∀ y, M.after x = some y → ¬ Touch x y := h.next_iff
      rw [patsplitLoop_eq]
      constructor
      · intro heq
        cases hnext : patsplitNext e r s x prevAvail with
        | none =>
            cases hafter : M.after x with
            | none =>
                rw [hnext, hafter] at hnext_iff
                rw [allFrom_none hafter]
                exact ⟨(hnext_iff.mp rfl).1, List.isChain_singleton x⟩
            | some z =>
                rw [hnext, allFrom_some hafter, allFrom_eq z] at heq
                cases heq
        | some y =>
            rw [hnext] at heq
            cases hafter : M.after x with
            | none =>
                rw [allFrom_none hafter, Option.elim_some, patsplitLoop_eq] at heq
                cases heq
            | some z =>
                rw [allFrom_some hafter, Option.elim_some] at heq
                have hloop := (List.cons.inj heq).2
                have hz : y.1 = z := by
                  have hhead := congrArg List.head? hloop
                  rw [patsplitLoop_eq, allFrom_head] at hhead
                  exact Option.some.inj hhead
                subst hz
                rw [hnext, hafter] at hnext_iff
                obtain ⟨hseen, hapart⟩ := hnext_iff.mp rfl
                rw [isChain_allFrom hafter]
                exact ⟨hseen, hapart _ rfl, ((hstep hafter).mp hloop).2⟩
      · rintro ⟨hseen, hchain⟩
        have hapart : ∀ y, M.after x = some y → ¬ Touch x y := fun y hafter => ((isChain_allFrom hafter).mp hchain).1
        have hsame := hnext_iff.mpr ⟨hseen, hapart⟩
        cases hnext : patsplitNext e r s x prevAvail with
        | none =>
            rw [hnext] at hsame
            exact (allFrom_none hsame.symm).symm
        | some y =>
            rw [hnext] at hsame
            have hafter : M.after x = some y.1 := hsame.symm
            have hrest := ((isChain_allFrom hafter).mp hchain).2
            rw [allFrom_some hafter, Option.elim_some, (hstep hafter).mpr ⟨h.next_seen hnext, hrest⟩]

/-- What the first search finds, if it is empty, is not at the beginning. -/
def FirstSeen (e : Engine R) (r : R) (s : List UInt8) (M : Matcher s.length) : Prop :=
  ∀ x, M.leftmost 0 = some x → Seen e r s M x false

theorem Faithful.matches_iff (h : Faithful e r s M) : patsplitOf e r s = M.allMatches ↔
    FirstSeen e r s M ∧ M.allMatches.IsChain fun x y => ¬ Touch x y := by
  rw [patsplitOf, h.start, Matcher.allMatches, FirstSeen]
  cases M.leftmost 0 with
  | none => exact ⟨fun _ => ⟨fun _ h => (by cases h), .nil⟩, fun _ => rfl⟩
  | some x =>
      change patsplitLoop e r s x ⟨false, false, false⟩ = M.allFrom x ↔
        (∀ z, some x = some z → Seen e r s M z false) ∧ (M.allFrom x).IsChain fun x y => ¬ Touch x y
      rw [h.loop_iff]
      simp only [Option.some.injEq, forall_eq']

/-- The loop ends: each turn goes on from a later position. -/
theorem patsplitLoop_length : (patsplitLoop e r s x ⟨prevAvail, false, false⟩).length ≤ s.length - x.second + 1 := by
  induction hk : s.length - x.second using Nat.strong_induction_on generalizing x prevAvail with
  | _ k ih =>
      rw [patsplitLoop_eq]
      cases hnext : patsplitNext e r s x prevAvail with
      | none => exact Nat.le_add_left 1 k
      | some y =>
          have hlt : x.second < y.1.second := patsplitNext_lt hnext
          have hle := y.1.second_le
          have hrest : (patsplitLoop e r s y.1 ⟨y.2, false, false⟩).length ≤ s.length - y.1.second + 1 :=
            ih (s.length - y.1.second) (by omega) rfl
          rw [Option.elim_some, List.length_cons]
          omega

theorem regexPatsplit_view (hmark : e.markCount r = 0) (m : Memory) (subject : Arg) (v : View) (h : subject.view 2 = .ok v) :
    regexPatsplit e r m subject = .ok ((patsplitOf e r (v.read m)).map (v.sub m)) := by
  simp only [regexPatsplit, h, bind, Except.bind, hmark, if_pos, patsplitOf]
  cases e.search r (v.read m) 0 .default <;> rfl

/-- The fields are all the matches, exactly if none begins where another ends
and the first one, if it is empty, is seen to be preceded by the rest. -/
theorem patsplit_fields_iff (hmark : e.markCount r = 0) (M : Matcher s.length) (h : Faithful e r s M) :
    (patsplitOf e r s = M.allMatches ↔ FirstSeen e r s M ∧ M.allMatches.IsChain fun x y => ¬ Touch x y) ∧
      M.Lists M.allMatches ∧ (patsplitOf e r s).length ≤ s.length + 1 ∧
      ∀ m, regexPatsplit e r m (.string s) = .ok ((patsplitOf e r s).map fun x => .string x.bytes) ∧
        ∀ bs : Span, bs.read m = s →
          regexPatsplit e r m (.span bs) = .ok ((patsplitOf e r s).map fun x => .span (bs.sub x)) ∧
          ∀ x : Range s.length, (bs.sub x).read m = x.bytes := by
  refine ⟨h.matches_iff, allMatches_lists M, ?_, fun m => ⟨?_, ?_⟩⟩
  · rw [patsplitOf]
    cases e.search r s 0 .default with
    | none => exact Nat.zero_le _
    | some x => exact patsplitLoop_length.trans (Nat.succ_le_succ (Nat.sub_le _ _))
  · exact regexPatsplit_view hmark m (.string s) (.literal s) rfl
  · rintro bs rfl
    exact ⟨regexPatsplit_view hmark m (.span bs) (.window bs) rfl, sub_read⟩

end

/-! Patterns without special characters. -/

section
variable {r s : List UInt8} {p i : Nat}

theorem le_add_length (r : List UInt8) (p : Nat) : p ≤ p + r.length := Nat.le_add_right _ _

def occurrence (r s : List UInt8) (p : Nat) : Option (Range s.length) :=
  if h : p + r.length ≤ s.length ∧ r.isPrefixOf (s.drop p) = true then some ⟨p, p + r.length, le_add_length r p, h.1⟩
  else none

theorem occurrence_some {x : Range s.length} (h : occurrence r s p = some x) : x.first = p ∧ x.second = p + r.length := by
  unfold occurrence at h
  split at h
  · cases h
    exact ⟨rfl, rfl⟩
  · cases h

def literalMatcher (r s : List UInt8) : Matcher s.length where
  matchAt := occurrence r s
  wideAt p := if r = [] then none else occurrence r s p
  matchAt_first _ _ h := (occurrence_some h).1
  wideAt_first _ _ h := (occurrence_some (Option.ite_none_left_eq_some.mp h).2).1
  wideAt_wide _ _ h := by
    obtain ⟨hne, h⟩ := Option.ite_none_left_eq_some.mp h
    have hpos := List.length_pos_iff.mpr hne
    obtain ⟨hfirst, hsecond⟩ := occurrence_some h
    omega
  wideAt_of_matchAt _ _ h hwide := by
    obtain ⟨hfirst, hsecond⟩ := occurrence_some h
    rw [if_neg, h]
    intro hnil
    rw [hnil, List.length_nil] at hsecond
    omega
  matchAt_of_wideAt _ _ h := ⟨_, (Option.ite_none_left_eq_some.mp h).2⟩

theorem occurrence_none_iff (hi : i ≤ s.length) : occurrence r s i = none ↔ ¬ r <+: s.drop i := by
  rw [← List.isPrefixOf_iff_prefix, occurrence]
  by_cases hocc : r.isPrefixOf (s.drop i) = true
  · have hfit := (List.isPrefixOf_iff_prefix.mp hocc).length_le
    rw [List.length_drop] at hfit
    rw [dif_pos ⟨by omega, hocc⟩]
    exact ⟨(by simp), fun hno => absurd hocc hno⟩
  · rw [dif_neg (fun h => hocc h.2)]
    exact ⟨fun _ => hocc, fun _ => rfl⟩

theorem occurrence_end (hi : s.length < i) : occurrence r s i = none := dif_neg fun h => by omega

theorem find_none (h : find s r p = none) {q : Nat} (hq : p ≤ q) : occurrence r s q = none := by
  rcases Nat.lt_or_ge s.length q with hgt | hle
  · exact occurrence_end hgt
  · have hno := List.find?_eq_none.mp h q (List.mem_range.mpr (Nat.lt_succ_of_le hle))
    rw [occurrence_none_iff hle]
    simpa [hq] using hno

theorem find_some (h : find s r p = some i) : p ≤ i ∧ (∃ hfit : i + r.length ≤ s.length,
    occurrence r s i = some ⟨i, i + r.length, Nat.le_add_right _ _, hfit⟩) ∧
      ∀ j, p ≤ j → j < i → occurrence r s j = none := by
  obtain ⟨hlt, hocc, hbefore⟩ := firstIndex_spec h
  obtain ⟨hle, hocc⟩ := Bool.and_eq_true_iff.mp hocc
  have hfit := (List.isPrefixOf_iff_prefix.mp hocc).length_le
  rw [List.length_drop] at hfit
  refine ⟨of_decide_eq_true hle, ⟨by omega, dif_pos ⟨by omega, hocc⟩⟩, fun j hj hji => ?_⟩
  have hno := hbefore j hji
  rw [occurrence_none_iff (by omega)]
  intro hpre
  rw [decide_eq_true hj, List.isPrefixOf_iff_prefix.mpr hpre] at hno
  cases hno

theorem literal_leftmost (prevAvail : Bool) :
    literalEngine.search r s p ⟨prevAvail, false, false⟩ = (literalMatcher r s).leftmost p := by
  cases hfind : find s r p with
  | none =>
      rw [leftmost_eq_none fun q hq => find_none hfind hq]
      simp only [literalEngine, hfind]
  | some i =>
      obtain ⟨hle, ⟨hfit, hocc⟩, hbefore⟩ := find_some hfind
      rw [leftmost_eq_some (y := ⟨i, i + r.length, Nat.le_add_right _ _, hfit⟩) hle hocc hbefore]
      simp only [literalEngine, hfind]
      rw [dif_pos ⟨hle, hfit, (by simp), (by simp)⟩]

theorem literal_wide (prevAvail : Bool) :
    literalEngine.search r s p ⟨prevAvail, true, true⟩ = (literalMatcher r s).wideAt p := by
  change _ = if r = [] then none else occurrence r s p
  cases hfind : find s r p with
  | none =>
      rw [find_none hfind (Nat.le_refl p), ite_self]
      simp only [literalEngine, hfind]
  | some i =>
      obtain ⟨hle, ⟨hfit, hocc⟩, hbefore⟩ := find_some hfind
      simp only [literalEngine, hfind]
      by_cases hnil : r = []
      · rw [if_pos hnil, dif_neg]
        intro h
        exact absurd (h.2.2.1 trivial) (by simp [hnil])
      · rw [if_neg hnil]
        by_cases hp : i = p
        · subst hp
          rw [hocc, dif_pos ⟨hle, hfit, fun _ => List.length_pos_iff.mpr hnil, fun _ => rfl⟩]
        · rw [hbefore p (Nat.le_refl p) (by omega), dif_neg]
          exact fun h => hp (h.2.2.2 trivial)

theorem literal_faithful (r s : List UInt8) : Faithful literalEngine r s (literalMatcher r s) where
  start := literal_leftmost false
  later _ _ _ := literal_leftmost true
  wide_start := literal_wide false
  wide_later _ _ _ := literal_wide true
  continuous p prevAvail notNull y h := by
    simp only [literalEngine] at h
    split at h
    · split at h
      · rename_i hfound
        cases h
        exact hfound.2.2.2 trivial
      · cases h
    · cases h

end

/-- `"a"` in `"a,a"`. -/
theorem patsplit_fields_apart :
    patsplitOf literalEngine [97] [97, 44, 97] = (literalMatcher [97] [97, 44, 97]).allMatches ∧
      (literalMatcher [97] [97, 44, 97]).allMatches.map Range.bytes = [[97], [97]] := by
  have hall : (literalMatcher [97] [97, 44, 97]).allMatches =
      [⟨0, 1, by decide, by decide⟩, ⟨2, 3, by decide, by decide⟩] := by
    change (literalMatcher [97] [97, 44, 97]).allFrom ⟨0, 1, by decide, by decide⟩ = _
    rw [allFrom_some (y := ⟨2, 3, by decide, by decide⟩) (by decide), allFrom_none (by decide)]
  have h := (patsplit_fields_iff rfl _ (literal_faithful [97] [97, 44, 97])).1
  rw [hall] at h ⊢
  refine ⟨h.mpr ⟨fun x hx => ?_, ?_⟩, rfl⟩
  · have hfirst : (literalMatcher [97] [97, 44, 97]).leftmost 0 = some ⟨0, 1, by decide, by decide⟩ := by decide
    cases hfirst.symm.trans hx
    exact seen_wide (by decide)
  · refine List.isChain_pair.mpr ?_
    rintro ⟨-, hadjacent⟩
    cases hadjacent

/-- `"a"` in `"aa"`. -/
theorem adjacent_match_lost :
    Faithful literalEngine [97] [97, 97] (literalMatcher [97] [97, 97]) ∧
      (literalMatcher [97] [97, 97]).allMatches.map Range.bytes = [[97], [97]] ∧
      regexPatsplit literalEngine [97] [] (.string [97, 97]) = .ok [.string [97]] := by
  refine ⟨literal_faithful _ _, ?_, ?_⟩
  · change ((literalMatcher [97] [97, 97]).allFrom ⟨0, 1, by decide, by decide⟩).map Range.bytes = _
    rw [allFrom_some (y := ⟨1, 2, by decide, by decide⟩) (by decide), allFrom_none (by decide)]
    rfl
  · rw [regexPatsplit_view rfl [] (.string [97, 97]) (.literal [97, 97]) rfl]
    change Except.ok ((patsplitLoop literalEngine [97] [97, 97] ⟨0, 1, by decide, by decide⟩
      ⟨false, false, false⟩).map (View.sub [] (.literal [97, 97]))) = _
    rw [patsplitLoop_eq]
    rfl

end Emilua.Bytes
