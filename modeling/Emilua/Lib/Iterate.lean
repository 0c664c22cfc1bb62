import Mathlib.Logic.Relation

/-!
Loops given by what one turn does: go on with a new state, or end with a result.
A turn that does neither is one whose effect is not defined.
-/
namespace Iterate
open Relation

variable {σ ρ : Type} (turn : σ → Option (σ ⊕ ρ))

def run : Nat → σ → Option ρ
  | 0, _ => none
  | n + 1, s =>
      match turn s with
      | some (.inl s) => run n s
      | some (.inr r) => some r
      | none => none

def Goes : σ → σ → Prop := ReflTransGen fun s s' => turn s = some (.inl s')

def Ends (s : σ) (r : ρ) : Prop := ∃ s', Goes turn s s' ∧ turn s' = some (.inr r)

/-- The loop comes to a turn whose effect is not defined. -/
def Stuck (s : σ) : Prop := ∃ s', Goes turn s s' ∧ turn s' = none

variable {turn} {s s' : σ} {r r' : ρ}

theorem Goes.step (h : turn s = some (.inl s')) : Goes turn s s' := .single h

theorem Goes.trans {s'' : σ} (h : Goes turn s s') (h' : Goes turn s' s'') : Goes turn s s'' :=
  ReflTransGen.trans h h'

theorem Ends.after (h : Goes turn s s') (he : Ends turn s' r) : Ends turn s r := by
  obtain ⟨s₁, hgoes, hturn⟩ := he
  exact ⟨s₁, h.trans hgoes, hturn⟩

theorem Stuck.after (h : Goes turn s s') (hs : Stuck turn s') : Stuck turn s := by
  obtain ⟨s₁, hgoes, hturn⟩ := hs
  exact ⟨s₁, h.trans hgoes, hturn⟩

theorem ends_of_run {fuel : Nat} (h : run turn fuel s = some r) : Ends turn s r := by
  induction fuel generalizing s with
  | zero => cases h
  | succ fuel ih =>
      rw [run] at h
      cases hturn : turn s with
      | none =>
          rw [hturn] at h
          cases h
      | some next =>
          rw [hturn] at h
          cases next with
          | inl s' => exact (ih h).after (.step hturn)
          | inr r' =>
              cases h
              exact ⟨s, .refl, hturn⟩

theorem run_of_ends (h : Ends turn s r) : ∃ fuel, run turn fuel s = some r := by
  obtain ⟨s', hgoes, hturn⟩ := h
  induction hgoes using ReflTransGen.head_induction_on with
  | refl => exact ⟨1, by rw [run, hturn]⟩
  | head hstep _ ih =>
      obtain ⟨fuel, hrun⟩ := ih
      exact ⟨fuel + 1, by simpa only [run, hstep] using hrun⟩

/-- The loop has one end. -/
theorem run_unique {fuel fuel' : Nat} (h : run turn fuel s = some r) (h' : run turn fuel' s = some r') : r = r' := by
  induction fuel generalizing fuel' s with
  | zero => cases h
  | succ fuel ih =>
      cases fuel' with
      | zero => cases h'
      | succ fuel' =>
          rw [run] at h h'
          cases hturn : turn s with
          | none =>
              rw [hturn] at h
              cases h
          | some next =>
              rw [hturn] at h h'
              cases next with
              | inl s' => exact ih h h'
              | inr r'' =>
                  cases h
                  cases h'
                  rfl

theorem Ends.unique (h : Ends turn s r) (h' : Ends turn s r') : r = r' := by
  obtain ⟨fuel, hrun⟩ := run_of_ends h
  obtain ⟨fuel', hrun'⟩ := run_of_ends h'
  exact run_unique hrun hrun'

theorem Stuck.not_run (h : Stuck turn s) (fuel : Nat) : run turn fuel s = none := by
  obtain ⟨s', hgoes, hturn⟩ := h
  induction hgoes using ReflTransGen.head_induction_on generalizing fuel with
  | refl =>
      cases fuel with
      | zero => rfl
      | succ fuel => rw [run, hturn]
  | head hstep _ ih =>
      cases fuel with
      | zero => rfl
      | succ fuel => simpa only [run, hstep] using ih fuel

end Iterate
