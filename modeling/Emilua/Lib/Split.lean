import Mathlib.Tactic

/-!
A list cut at the occurrences of a separator, leftmost first and without
overlaps. The last piece has no separator after it, and is left out if it is
empty.
-/
namespace Split

variable {α : Type} [DecidableEq α] {sep xs ys : List α} {i : Nat}

def occursAt (sep xs : List α) (i : Nat) : Bool := sep.isPrefixOf (xs.drop i)

def firstAt (sep xs : List α) : Option Nat := (List.range (xs.length + 1)).find? (occursAt sep xs)

omit [DecidableEq α] in
/-- The pieces of a list, each with what ends it. -/
inductive Records (sep : List α) : List α → List (List α × List α) → Prop
  | nil : Records sep [] []
  | last {xs : List α} (hne : xs ≠ []) (hno : ∀ i, ¬ sep <+: xs.drop i) : Records sep xs [(xs, [])]
  | cons {r rest : List α} {rs : List (List α × List α)} (hfirst : ∀ i < r.length, ¬ sep <+: (r ++ sep ++ rest).drop i)
      (hrest : Records sep rest rs) : Records sep (r ++ sep ++ rest) ((r, sep) :: rs)

/-- The pieces, found one after the other. -/
def records (sep : List α) : Nat → List α → List (List α × List α)
  | 0, _ => []
  | fuel + 1, xs =>
      if xs = [] then []
      else
        match firstAt sep xs with
        | some i => (xs.take i, sep) :: records sep fuel (xs.drop (i + sep.length))
        | none => [(xs, [])]

def split (sep xs : List α) : List (List α × List α) := records sep xs.length xs

theorem occursAt_iff : occursAt sep xs i = true ↔ sep <+: xs.drop i := List.isPrefixOf_iff_prefix

omit [DecidableEq α] in
theorem occurs_length (hsep : sep ≠ []) (h : sep <+: xs.drop i) : i + sep.length ≤ xs.length := by
  have hle := h.length_le
  have hpos := List.length_pos_iff.mpr hsep
  rw [List.length_drop] at hle
  omega

omit [DecidableEq α] in
theorem occurs_append (ys : List α) (h : sep <+: xs.drop i) (hsep : sep ≠ []) : sep <+: (xs ++ ys).drop i := by
  have hle := occurs_length hsep h
  rw [List.drop_append_of_le_length (by omega)]
  exact h.trans (List.prefix_append _ _)

omit [DecidableEq α] in
/-- An occurrence that ends inside the first part. -/
theorem occurs_of_append (ys : List α) (h : sep <+: (xs ++ ys).drop i) (hle : i + sep.length ≤ xs.length) : sep <+: xs.drop i := by
  rw [List.drop_append_of_le_length (by omega)] at h
  refine List.prefix_of_prefix_length_le h (List.prefix_append _ _) ?_
  rw [List.length_drop]
  omega

theorem firstAt_some (h : firstAt sep xs = some i) : sep <+: xs.drop i ∧ ∀ j < i, ¬ sep <+: xs.drop j := by
  obtain ⟨hi, -, hbefore⟩ := List.find?_range_eq_some.mp h
  refine ⟨occursAt_iff.mp hi, fun j hj hocc => ?_⟩
  have hno := hbefore j hj
  rw [occursAt_iff.mpr hocc] at hno
  cases hno

theorem firstAt_none (hsep : sep ≠ []) (h : firstAt sep xs = none) (i : Nat) : ¬ sep <+: xs.drop i := by
  intro hocc
  have hle := occurs_length hsep hocc
  have hno := List.find?_eq_none.mp h i (List.mem_range.mpr (by omega))
  exact hno (occursAt_iff.mpr hocc)

/-- What occurs first in the beginning of a list occurs first in the list. -/
theorem firstAt_eq (h : firstAt sep xs = some i) (hsep : sep ≠ []) {j : Nat} (hj : sep <+: (xs ++ ys).drop j)
    (hbefore : ∀ k < j, ¬ sep <+: (xs ++ ys).drop k) : i = j := by
  obtain ⟨hi, hfirst⟩ := firstAt_some h
  have hle := occurs_length hsep hi
  rcases Nat.lt_trichotomy i j with hlt | heq | hgt
  · exact absurd (occurs_append _ hi hsep) (hbefore i hlt)
  · exact heq
  · exact absurd (occurs_of_append _ hj (by omega)) (hfirst j hgt)

theorem records_spec (hsep : sep ≠ []) {fuel : Nat} (hfuel : xs.length ≤ fuel) : Records sep xs (records sep fuel xs) := by
  induction fuel generalizing xs with
  | zero =>
      obtain rfl : xs = [] := List.eq_nil_of_length_eq_zero (by omega)
      exact .nil
  | succ fuel ih =>
      rw [records]
      split
      · rename_i hnil
        rw [hnil]
        exact .nil
      · rename_i hne
        split
        · rename_i i hfirst
          obtain ⟨hocc, hbefore⟩ := firstAt_some hfirst
          have hle := occurs_length hsep hocc
          have hpos := List.length_pos_iff.mpr hsep
          have hcut : xs = xs.take i ++ sep ++ xs.drop (i + sep.length) := by
            obtain ⟨rest, hrest⟩ := hocc
            rw [← List.drop_drop, ← hrest, List.drop_left, List.append_assoc, hrest, List.take_append_drop]
          have hrest : Records sep (xs.drop (i + sep.length)) (records sep fuel (xs.drop (i + sep.length))) :=
            ih (by rw [List.length_drop]; omega)
          have hcons : Records sep (xs.take i ++ sep ++ xs.drop (i + sep.length)) _ := .cons (fun j hj => by
            rw [← hcut]
            rw [List.length_take] at hj
            exact hbefore j (by omega)) hrest
          rwa [← hcut] at hcons
        · rename_i hnone
          exact .last hne (firstAt_none hsep hnone)

theorem split_spec (hsep : sep ≠ []) (xs : List α) : Records sep xs (split sep xs) := records_spec hsep le_rfl

omit [DecidableEq α] in
theorem Records.flatten {rs : List (List α × List α)} (h : Records sep xs rs) : rs.flatMap (fun x => x.1 ++ x.2) = xs := by
  induction h with
  | nil => rfl
  | last => simp
  | cons _ _ ih => simp [ih]

end Split
