import Mathlib.Data.List.Perm.Basic
import Mathlib.Data.List.Nodup

/-!
Items held by the entries of a list. `l.flatMap held` is everything that is
held; what an update of one entry does to it is accounted for item by item.
-/
namespace Ledger

variable {α D : Type} [DecidableEq D] (held : α → List D) {l : List α} {i : Nat} {a : α}

theorem count_eraseIdx (h : l[i]? = some a) (d : D) :
    ((l.eraseIdx i).flatMap held).count d + (held a).count d = (l.flatMap held).count d := by
  obtain ⟨hlt, rfl⟩ := List.getElem?_eq_some_iff.mp h
  have hperm := (List.getElem_cons_eraseIdx_perm hlt).flatMap_right held
  rw [← hperm.count_eq, List.flatMap_cons, List.count_append, Nat.add_comm]

theorem count_set (h : l[i]? = some a) (b : α) (d : D) :
    ((l.set i b).flatMap held).count d + (held a).count d =
      (l.flatMap held).count d + (held b).count d := by
  obtain ⟨hlt, -⟩ := List.getElem?_eq_some_iff.mp h
  have hperm := (List.set_perm_cons_eraseIdx hlt b).flatMap_right held
  have herase := count_eraseIdx held h d
  rw [hperm.count_eq, List.flatMap_cons, List.count_append]
  omega

theorem count_concat (l : List α) (b : α) (d : D) :
    ((l ++ [b]).flatMap held).count d = (l.flatMap held).count d + (held b).count d := by
  rw [List.flatMap_append, List.count_append, List.flatMap_singleton]

/-- The items of one entry are apart from those of the others. -/
theorem disjoint_eraseIdx (h : l[i]? = some a) (hnodup : (l.flatMap held).Nodup) {d : D}
    (hmem : d ∈ held a) : d ∉ (l.eraseIdx i).flatMap held := by
  have hcount := count_eraseIdx held h d
  have hle := List.nodup_iff_count_le_one.mp hnodup d
  have hpos := List.count_pos_iff.mpr hmem
  exact List.count_eq_zero.mp (by omega)

theorem nodup_eraseIdx (h : l[i]? = some a) (hnodup : (l.flatMap held).Nodup) :
    (held a).Nodup ∧ ((l.eraseIdx i).flatMap held).Nodup := by
  rw [List.nodup_iff_count_le_one] at hnodup
  constructor <;>
  · rw [List.nodup_iff_count_le_one]
    intro d
    have hcount := count_eraseIdx held h d
    have hle := hnodup d
    omega

end Ledger
