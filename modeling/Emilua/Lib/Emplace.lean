import Mathlib.Data.List.Nodup
import Mathlib.Data.Finmap

/-!
Maps that entries are emplaced in: an entry whose key is taken is refused. Many
entries are emplaced one after the other, and which ones are does not depend on
the order.
-/
namespace Emplace

structure Ops (M κ β : Type) [DecidableEq κ] where
  lookup : M → κ → Option β
  emplace : M → κ → β → Option M
  emplace_none : ∀ m k v, emplace m k v = none ↔ ∃ w, lookup m k = some w
  lookup_emplace : ∀ m k v m' k', emplace m k v = some m' → lookup m' k' = if k' = k then some v else lookup m k'

section
variable {M κ β α γ : Type} [DecidableEq κ] (o : Ops M κ β) (entry : α → Option (κ × β))

/-- The entries of a list, where one that is none fails. -/
def Ops.allFrom (m : M) : List α → Option M
  | [] => some m
  | x :: xs => do
      let (k, v) ← entry x
      let m' ← o.emplace m k v
      allFrom m' xs

variable {o entry} {m m' : M} {xs ys : List α} {x : α} {k : κ} {v : β}

theorem allFrom_cons_eq (hx : entry x = some (k, v)) :
    o.allFrom entry m (x :: xs) = (o.emplace m k v).bind fun m' => o.allFrom entry m' xs := by
  simp only [Ops.allFrom, hx, Option.bind_eq_bind, Option.bind_some]

theorem allFrom_cons_none (hx : entry x = none) : o.allFrom entry m (x :: xs) = none := by
  simp only [Ops.allFrom, hx, Option.bind_eq_bind, Option.bind_none]

theorem allFrom_append : o.allFrom entry m (xs ++ ys) = (o.allFrom entry m xs).bind fun m' => o.allFrom entry m' ys := by
  induction xs generalizing m with
  | nil => rfl
  | cons x xs ih =>
      rw [List.cons_append]
      cases hx : entry x with
      | none => rw [allFrom_cons_none hx, allFrom_cons_none hx, Option.bind_none]
      | some kv =>
          rw [allFrom_cons_eq hx, allFrom_cons_eq hx, Option.bind_assoc]
          exact Option.bind_congr fun m' _ => ih

theorem allFrom_map (f : γ → α) (zs : List γ) : o.allFrom entry m (zs.map f) = o.allFrom (entry ∘ f) m zs := by
  induction zs generalizing m with
  | nil => rfl
  | cons z zs ih =>
      rw [List.map_cons]
      cases hz : entry (f z) with
      | none => rw [allFrom_cons_none hz, show o.allFrom (entry ∘ f) m (z :: zs) = none from allFrom_cons_none hz]
      | some kv =>
          rw [allFrom_cons_eq hz, show o.allFrom (entry ∘ f) m (z :: zs) = _ from allFrom_cons_eq hz]
          exact Option.bind_congr fun m' _ => ih

theorem emplace_some (h : o.lookup m k = none) (v : β) : ∃ m', o.emplace m k v = some m' := by
  cases hm : o.emplace m k v with
  | some m' => exact ⟨m', rfl⟩
  | none =>
      obtain ⟨w, hw⟩ := (o.emplace_none m k v).mp hm
      rw [h] at hw
      cases hw

theorem lookup_of_emplace (h : o.emplace m k v = some m') : o.lookup m k = none := by
  cases hw : o.lookup m k with
  | none => rfl
  | some w =>
      rw [(o.emplace_none m k v).mpr ⟨w, hw⟩] at h
      cases h

/-- The entries are there, beside those that were. -/
theorem allFrom_lookup (h : o.allFrom entry m xs = some m') :
    o.lookup m' k = some v ↔ o.lookup m k = some v ∨ ∃ x ∈ xs, entry x = some (k, v) := by
  induction xs generalizing m with
  | nil =>
      cases h
      simp
  | cons x xs ih =>
      cases hx : entry x with
      | none =>
          rw [allFrom_cons_none hx] at h
          cases h
      | some kv =>
          obtain ⟨k₀, v₀⟩ := kv
          rw [allFrom_cons_eq hx] at h
          obtain ⟨m₁, hm₁, hrest⟩ := Option.bind_eq_some_iff.mp h
          have hfree := lookup_of_emplace hm₁
          rw [ih hrest, o.lookup_emplace _ _ _ _ _ hm₁]
          simp only [List.mem_cons, exists_eq_or_imp, hx, Option.some.injEq, Prod.mk.injEq]
          by_cases hk : k = k₀
          · subst hk
            rw [if_pos rfl, hfree]
            simp only [Option.some.injEq, reduceCtorEq, false_or, true_and]
          · rw [if_neg hk]
            simp only [Ne.symm hk, false_and, false_or]

/-- Which lists are refused does not depend on their order: all are entries,
none has a key that is taken, and no two have one key. -/
theorem allFrom_some_iff : (∃ m', o.allFrom entry m xs = some m') ↔
    (∀ x ∈ xs, ∃ k v, entry x = some (k, v) ∧ o.lookup m k = none) ∧ (xs.map fun x => (entry x).map Prod.fst).Nodup := by
  induction xs generalizing m with
  | nil => exact ⟨fun _ => ⟨nofun, .nil⟩, fun _ => ⟨m, rfl⟩⟩
  | cons x xs ih =>
      cases hx : entry x with
      | none =>
          rw [allFrom_cons_none hx]
          refine ⟨nofun, fun h => ?_⟩
          obtain ⟨k, v, hkv, -⟩ := h.1 x List.mem_cons_self
          rw [hx] at hkv
          cases hkv
      | some kv =>
          obtain ⟨k, v⟩ := kv
          rw [allFrom_cons_eq hx, List.map_cons, List.nodup_cons, hx]
          constructor
          · rintro ⟨m', h⟩
            obtain ⟨m₁, hm₁, hrest⟩ := Option.bind_eq_some_iff.mp h
            obtain ⟨hall, hnodup⟩ := ih.mp ⟨m', hrest⟩
            have hother : ∀ y ∈ xs, ∃ k' v', entry y = some (k', v') ∧ k' ≠ k ∧ o.lookup m k' = none := by
              intro y hy
              obtain ⟨k', v', hy', hfree⟩ := hall y hy
              rw [o.lookup_emplace _ _ _ _ _ hm₁] at hfree
              split at hfree
              · cases hfree
              · rename_i hne
                exact ⟨k', v', hy', hne, hfree⟩
            refine ⟨List.forall_mem_cons.mpr ⟨⟨k, v, hx, lookup_of_emplace hm₁⟩, fun y hy => ?_⟩, fun hmem => ?_, hnodup⟩
            · obtain ⟨k', v', hy', -, hfree⟩ := hother y hy
              exact ⟨k', v', hy', hfree⟩
            · obtain ⟨y, hy, hkey⟩ := List.mem_map.mp hmem
              obtain ⟨k', v', hy', hne, -⟩ := hother y hy
              rw [hy'] at hkey
              exact hne (Option.some.inj hkey)
          · rintro ⟨hall, hnew, hnodup⟩
            obtain ⟨⟨k₁, v₁, hx₁, hfree⟩, hrest⟩ := List.forall_mem_cons.mp hall
            obtain ⟨rfl, rfl⟩ : k = k₁ ∧ v = v₁ := by simpa [hx] using hx₁
            obtain ⟨m₁, hm₁⟩ := emplace_some hfree v
            rw [hm₁, Option.bind_some]
            refine ih.mpr ⟨fun y hy => ?_, hnodup⟩
            obtain ⟨k', v', hy', hfree'⟩ := hrest y hy
            refine ⟨k', v', hy', ?_⟩
            rw [o.lookup_emplace _ _ _ _ _ hm₁, if_neg, hfree']
            rintro rfl
            exact hnew (List.mem_map.mpr ⟨y, hy, by rw [hy']; rfl⟩)

/-- Into an empty map. -/
theorem allFrom_empty_iff (hempty : ∀ k, o.lookup m k = none) (hxs : xs.Nodup) : (∃ m', o.allFrom entry m xs = some m') ↔
    (∀ x ∈ xs, ∃ kv, entry x = some kv) ∧
      ∀ x ∈ xs, ∀ y ∈ xs, (entry x).map Prod.fst = (entry y).map Prod.fst → x = y := by
  rw [allFrom_some_iff, List.nodup_map_iff_inj_on hxs]
  refine and_congr_left fun _ => forall₂_congr fun x _ => ⟨?_, ?_⟩
  · rintro ⟨k, v, hx, -⟩
    exact ⟨_, hx⟩
  · rintro ⟨⟨k, v⟩, hx⟩
    exact ⟨k, v, hx, hempty k⟩

end

/-! The maps of the standard library. -/

section
variable {κ β : Type} [DecidableEq κ]

def finmap : Ops (Finmap fun _ : κ => β) κ β where
  lookup m k := m.lookup k
  emplace m k v := if k ∈ m then none else some (m.insert k v)
  emplace_none m k v := by
    by_cases hk : k ∈ m
    · rw [if_pos hk]
      exact ⟨fun _ => Finmap.mem_iff.mp hk, fun _ => rfl⟩
    · rw [if_neg hk]
      exact ⟨nofun, fun h => absurd (Finmap.mem_iff.mpr h) hk⟩
  lookup_emplace m k v m' k' h := by
    split at h
    · cases h
    · cases h
      split
      · rename_i heq
        rw [heq, Finmap.lookup_insert]
      · rename_i hne
        exact Finmap.lookup_insert_of_ne m hne

variable {ι : Type} [DecidableEq ι]

/-- Maps in a map, where the map of a key is made when it is first needed. -/
def nested : Ops (Finmap fun _ : κ => Finmap fun _ : ι => β) (κ × ι) β where
  lookup m k := (m.lookup k.1).bind (Finmap.lookup k.2)
  emplace m k v := (finmap.emplace ((m.lookup k.1).getD ∅) k.2 v).map (m.insert k.1)
  emplace_none m k v := by
    rw [Option.map_eq_none_iff, finmap.emplace_none]
    cases m.lookup k.1 with
    | none => exact ⟨fun h => by simp [finmap] at h, nofun⟩
    | some inner => exact Iff.rfl
  lookup_emplace m k v m' k' h := by
    obtain ⟨inner, hinner, rfl⟩ := Option.map_eq_some_iff.mp h
    have hlookup := finmap.lookup_emplace _ _ _ _ k'.2 hinner
    change inner.lookup k'.2 = if k'.2 = k.2 then some v else ((m.lookup k.1).getD ∅).lookup k'.2 at hlookup
    by_cases hfst : k'.1 = k.1
    · rw [hfst, Finmap.lookup_insert, Option.bind_some, hlookup]
      by_cases hsnd : k'.2 = k.2
      · rw [if_pos hsnd, if_pos (Prod.ext hfst hsnd)]
      · rw [if_neg hsnd, if_neg fun heq => hsnd (congrArg Prod.snd heq)]
        cases m.lookup k.1 with
        | none => exact Finmap.lookup_empty _
        | some _ => rfl
    · rw [Finmap.lookup_insert_of_ne _ hfst, if_neg fun heq => hfst (congrArg Prod.fst heq)]

variable {α : Type} {entry : α → Option ((κ × ι) × β)} {m m' : Finmap fun _ : κ => Finmap fun _ : ι => β} {xs : List α}

theorem nested_lookup (k : κ × ι) : nested.lookup m k = (m.lookup k.1).bind (Finmap.lookup k.2) := rfl

theorem nested_emplace_lookup {k : κ × ι} {v : β} (h : nested.emplace m k v = some m') (c : κ) :
    (∃ inner, m'.lookup c = some inner) ↔ (∃ inner, m.lookup c = some inner) ∨ c = k.1 := by
  obtain ⟨inner, -, rfl⟩ := Option.map_eq_some_iff.mp h
  by_cases hc : c = k.1
  · subst hc
    rw [Finmap.lookup_insert]
    exact ⟨fun _ => .inr rfl, fun _ => ⟨inner, rfl⟩⟩
  · rw [Finmap.lookup_insert_of_ne _ hc, or_iff_left hc]

/-- No map is made but for an entry. -/
theorem nested_allFrom_lookup (h : nested.allFrom entry m xs = some m') (c : κ) :
    (∃ inner, m'.lookup c = some inner) ↔
      (∃ inner, m.lookup c = some inner) ∨ ∃ x ∈ xs, ∃ l v, entry x = some ((c, l), v) := by
  induction xs generalizing m with
  | nil =>
      cases h
      simp
  | cons x xs ih =>
      cases hx : entry x with
      | none =>
          rw [allFrom_cons_none hx] at h
          cases h
      | some kv =>
          rw [allFrom_cons_eq hx] at h
          obtain ⟨m₁, hm₁, hrest⟩ := Option.bind_eq_some_iff.mp h
          rw [ih hrest, nested_emplace_lookup hm₁, or_assoc]
          simp only [List.mem_cons, exists_eq_or_imp, hx, Option.some.injEq]
          refine or_congr_right (or_congr_left ⟨?_, ?_⟩)
          · rintro rfl
            exact ⟨kv.1.2, kv.2, rfl⟩
          · rintro ⟨l, v, rfl⟩
            rfl

end

end Emplace
