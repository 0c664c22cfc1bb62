import Mathlib.Data.List.GetD
import Mathlib.Tactic

/-!
Lists of values with a null that are packed into a table and unpacked again. The
length of a table with nulls is one of its borders, and what is behind the border
is lost.
-/
namespace Varargs

variable {α : Type}

/-- A field of the table, counted from 1. -/
def index (nil : α) (xs : List α) (i : Nat) : α := if i = 0 then nil else xs.getD (i - 1) nil

/-- The fields from `i` to `j`. -/
def unpack (nil : α) (xs : List α) (i j : Nat) : List α := (List.range' i (j + 1 - i)).map (index nil xs)

/-- A border is a field that is not null before one that is, or 0 before a null. -/
def Border (nil : α) (xs : List α) (n : Nat) : Prop :=
  (n = 0 ∨ index nil xs n ≠ nil) ∧ index nil xs (n + 1) = nil

/-- A length operator finds some border of each table. -/
structure Length (nil : α) where
  len : List α → Nat
  border : ∀ xs, Border nil xs (len xs)

variable {nil : α} {xs : List α} {n : Nat}

theorem index_succ (nil : α) (xs : List α) (i : Nat) : index nil xs (i + 1) = xs.getD i nil := rfl

theorem Border.le (h : Border nil xs n) : n ≤ xs.length := by
  rcases h.1 with hn | hn
  · omega
  · by_contra hlt
    obtain ⟨m, rfl⟩ : ∃ m, n = m + 1 := ⟨n - 1, by omega⟩
    rw [index_succ, List.getD_eq_default _ _ (by omega)] at hn
    exact hn rfl

theorem unpack_one (nil : α) (h : n ≤ xs.length) : unpack nil xs 1 n = xs.take n := by
  refine List.ext_getElem (by simp [unpack, h]) fun i hi hi' => ?_
  simp only [unpack, List.getElem_map, List.getElem_range', List.getElem_take]
  have hlt : i < xs.length := by
    rw [List.length_take] at hi'
    omega
  rw [show 1 + 1 * i = i + 1 by omega, index_succ, List.getD_eq_getElem _ _ hlt]

/-- The first field may be kept back. -/
theorem unpack_two (nil : α) (x : α) (h : n ≤ xs.length) : unpack nil (x :: xs) 2 (n + 1) = xs.take n := by
  rw [← unpack_one nil h]
  refine List.ext_getElem (by simp [unpack]) fun i hi hi' => ?_
  simp only [unpack, List.getElem_map, List.getElem_range']
  rw [show 2 + 1 * i = (i + 1) + 1 by omega, show 1 + 1 * i = i + 1 by omega, index_succ, index_succ, List.getD_cons_succ]

theorem take_eq_self_iff_le : xs.take n = xs ↔ xs.length ≤ n := by
  constructor
  · intro h
    have hlen := congrArg List.length h
    rw [List.length_take] at hlen
    omega
  · exact List.take_of_length_le

/-- The border of a table without nulls is its end. -/
theorem Border.eq_length (h : Border nil xs n) (hnil : nil ∉ xs) : n = xs.length := by
  refine le_antisymm h.le ?_
  by_contra hlt
  have hindex := h.2
  rw [index_succ, List.getD_eq_getElem _ _ (by omega)] at hindex
  exact hnil (hindex ▸ List.getElem_mem _)

/-- A null at the end is never within the border. -/
theorem Border.lt_length {ys : List α} (h : Border nil (ys ++ [nil]) n) : n < (ys ++ [nil]).length := by
  refine lt_of_le_of_ne h.le fun heq => ?_
  rw [List.length_append, List.length_singleton] at heq
  rcases h.1 with hn | hn
  · omega
  · rw [heq, index_succ] at hn
    simp at hn

namespace Length
variable (L : Length nil)

/-- `unpack` of all that is found. -/
def all (xs : List α) : List α := unpack nil xs 1 (L.len xs)

/-- `unpack` of what is found behind the first field. -/
def tail (xs : List α) : List α := unpack nil xs 2 (L.len xs)

/-- The whole list is found. -/
def Whole (xs : List α) : Prop := L.len xs = xs.length

instance (xs : List α) : Decidable (L.Whole xs) := inferInstanceAs (Decidable (_ = _))

theorem all_eq (xs : List α) : L.all xs = xs.take (L.len xs) := unpack_one nil (L.border xs).le

theorem all_eq_self_iff : L.all xs = xs ↔ L.Whole xs := by
  rw [L.all_eq, take_eq_self_iff_le]
  exact ⟨fun h => le_antisymm (L.border xs).le h, fun h => h.ge⟩

/-- A first field that is not null is found. -/
theorem len_cons_pos {x : α} (hx : x ≠ nil) (xs : List α) : 0 < L.len (x :: xs) := by
  by_contra hzero
  have hindex := (L.border (x :: xs)).2
  rw [show L.len (x :: xs) = 0 by omega] at hindex
  exact hx hindex

theorem tail_cons {x : α} (hx : x ≠ nil) (xs : List α) : L.tail (x :: xs) = xs.take (L.len (x :: xs) - 1) := by
  have hpos := L.len_cons_pos hx xs
  have hle := (L.border (x :: xs)).le
  rw [List.length_cons] at hle
  obtain ⟨m, hm⟩ : ∃ m, L.len (x :: xs) = m + 1 := ⟨L.len (x :: xs) - 1, by omega⟩
  unfold tail
  rw [hm]
  exact unpack_two nil x (by omega)

theorem tail_cons_eq_self_iff {x : α} (hx : x ≠ nil) : L.tail (x :: xs) = xs ↔ L.Whole (x :: xs) := by
  have hpos := L.len_cons_pos hx xs
  have hle := (L.border (x :: xs)).le
  rw [L.tail_cons hx, take_eq_self_iff_le]
  unfold Whole
  rw [List.length_cons] at hle ⊢
  omega

theorem whole_of_not_mem (hnil : nil ∉ xs) : L.Whole xs := (L.border xs).eq_length hnil

theorem not_whole_append_nil (xs : List α) : ¬ L.Whole (xs ++ [nil]) := (L.border (xs ++ [nil])).lt_length.ne

end Length

/-- The length that ends at the first null. -/
def firstBorder [DecidableEq α] (nil : α) : Length nil where
  len xs := (xs.takeWhile (· ≠ nil)).length
  border xs := by
    induction xs with
    | nil => exact ⟨.inl rfl, rfl⟩
    | cons x xs ih =>
        by_cases hx : x = nil
        · subst hx
          simp [Border, index]
        · rw [List.takeWhile_cons_of_pos (by simpa using hx), List.length_cons]
          refine ⟨.inr ?_, ?_⟩
          · rw [index_succ]
            rcases ih.1 with hzero | hne
            · rw [hzero]
              exact hx
            · obtain ⟨m, hm⟩ : ∃ m, (xs.takeWhile (· ≠ nil)).length = m + 1 := by
                refine ⟨(xs.takeWhile (· ≠ nil)).length - 1, ?_⟩
                have hpos : (xs.takeWhile (· ≠ nil)).length ≠ 0 := by
                  intro hzero
                  rw [hzero] at hne
                  exact hne rfl
                omega
              rw [hm] at hne ⊢
              exact hne
          · exact ih.2

end Varargs
