import Mathlib.Logic.Relation
import Mathlib.Data.Finset.Card

/-!
Depth-first walks of a graph that may have cycles, where the walk knows the
nodes it is inside of: its ancestors. It has to stop when it meets one of them.
-/
namespace Ancestors
open Relation

variable {α : Type} {node : α → Prop} {child : α → α → Prop} {V : Finset α} {v c : α}

/-- A walk from `v` inside of `V` meets an ancestor. -/
def Meets (node : α → Prop) (child : α → α → Prop) (V : Finset α) (v : α) : Prop :=
  ∃ u, ReflTransGen child v u ∧ node u ∧ (u ∈ V ∨ TransGen child u u)

theorem Meets.here (hv : node v) (hmem : v ∈ V) : Meets node child V v :=
  ⟨v, .refl, hv, .inl hmem⟩

variable [DecidableEq α]

theorem Meets.below (hc : child v c) (hm : Meets node child (insert v V) c) : Meets node child V v := by
  obtain ⟨u, hu, hnode, hmem | hcycle⟩ := hm
  · rcases Finset.mem_insert.mp hmem with rfl | hmem
    · exact ⟨u, .refl, hnode, .inr (TransGen.head' hc hu)⟩
    · exact ⟨u, hu.head hc, hnode, .inl hmem⟩
  · exact ⟨u, hu.head hc, hnode, .inr hcycle⟩

theorem Meets.cases (hm : Meets node child V v) :
    (node v ∧ v ∈ V) ∨ ∃ c, child v c ∧ Meets node child (insert v V) c := by
  obtain ⟨u, hu, hnode, hend⟩ := hm
  rcases hu.cases_head with rfl | ⟨c, hc, hcu⟩
  · rcases hend with hmem | hcycle
    · exact .inl ⟨hnode, hmem⟩
    · obtain ⟨c, hc, hcu⟩ := TransGen.head'_iff.mp hcycle
      exact .inr ⟨c, hc, v, hcu, hnode, .inl (Finset.mem_insert_self v V)⟩
  · exact .inr ⟨c, hc, u, hcu, hnode, hend.imp Finset.mem_insert_of_mem id⟩

/-- How much deeper a walk can get. -/
def room (nodes V : Finset α) : Nat := (nodes \ V).card

theorem room_le (nodes V : Finset α) : room nodes V ≤ nodes.card :=
  Finset.card_le_card Finset.sdiff_subset

theorem room_insert {nodes : Finset α} (hnode : v ∈ nodes) (hv : v ∉ V) :
    room nodes (insert v V) + 1 = room nodes V := by
  rw [room, Finset.sdiff_insert]
  exact Finset.card_erase_add_one (Finset.mem_sdiff.mpr ⟨hnode, hv⟩)

/-! The loop over the children of a node. `P` is what each of them leaves as it was. -/

section
variable {σ β ε : Type} {f g : σ → β → Except ε σ} {P : σ → Prop} {xs : List β} {s : σ} {r : ε}

theorem bind_ok {γ : Type} {x : Except ε β} {k : β → Except ε γ} {c : γ} (h : x >>= k = .ok c) :
    ∃ b, x = .ok b ∧ k b = .ok c := by
  cases x with
  | error r => cases h
  | ok b => exact ⟨b, rfl, h⟩

theorem bind_error {γ : Type} {x : Except ε β} {k : β → Except ε γ} (h : x >>= k = .error r) :
    x = .error r ∨ ∃ b, x = .ok b ∧ k b = .error r := by
  cases x with
  | error r' =>
      cases h
      exact .inl rfl
  | ok b => exact .inr ⟨b, rfl, h⟩

theorem map_ok {γ : Type} {x : Except ε β} {k : β → γ} {c : γ} (h : x.map k = .ok c) : ∃ b, x = .ok b ∧ k b = c := by
  cases x with
  | error r => cases h
  | ok b => exact ⟨b, rfl, Except.ok.inj h⟩

theorem map_error {γ : Type} {x : Except ε β} {k : β → γ} (h : x.map k = .error r) : x = .error r := by
  cases x with
  | error r' => exact congrArg Except.error (Except.error.inj h)
  | ok b => cases h

theorem foldlM_error (hstep : ∀ x ∈ xs, ∀ s s', P s → f s x = .ok s' → P s') (hs : P s)
    (hrun : xs.foldlM f s = .error r) : ∃ x ∈ xs, ∃ s', P s' ∧ f s' x = .error r := by
  induction xs generalizing s with
  | nil => cases hrun
  | cons x xs ih =>
      rw [List.foldlM_cons] at hrun
      cases hx : f s x with
      | error r' =>
          rw [hx] at hrun
          cases hrun
          exact ⟨x, List.mem_cons_self, s, hs, hx⟩
      | ok s' =>
          rw [hx] at hrun
          have hs' := hstep x List.mem_cons_self s s' hs hx
          obtain ⟨y, hy, hrest⟩ := ih (fun y hy => hstep y (List.mem_cons_of_mem x hy)) hs' hrun
          exact ⟨y, List.mem_cons_of_mem x hy, hrest⟩

theorem foldlM_congr (hstep : ∀ x ∈ xs, ∀ s s', P s → f s x = .ok s' → P s')
    (heq : ∀ x ∈ xs, ∀ s, P s → f s x = g s x) (hs : P s) : xs.foldlM f s = xs.foldlM g s := by
  induction xs generalizing s with
  | nil => rfl
  | cons x xs ih =>
      rw [List.foldlM_cons, List.foldlM_cons, ← heq x List.mem_cons_self s hs]
      cases hx : f s x with
      | error r' => rfl
      | ok s' =>
          exact ih (fun y hy => hstep y (List.mem_cons_of_mem x hy)) (fun y hy => heq y (List.mem_cons_of_mem x hy))
            (hstep x List.mem_cons_self s s' hs hx)

end

end Ancestors
