import Mathlib.Tactic
import Mathlib.Logic.Relation

/-!
Labelled transition systems, given by the initial states and a step relation:
the reachable states and the rule of invariants. A run in which every step
meets a condition is a run of the system whose steps are restricted to it.
-/
namespace Transition
open Relation

variable {σ α : Type}

def Next (step : σ → α → σ → Prop) (s s' : σ) : Prop := ∃ a, step s a s'

def Reachable (init : σ → Prop) (step : σ → α → σ → Prop) (s : σ) : Prop :=
  ∃ s₀, init s₀ ∧ ReflTransGen (Next step) s₀ s

/-- The system restricted to the steps that meet `ok`. -/
def restrict (ok : σ → α → Prop) (step : σ → α → σ → Prop) (s : σ) (a : α) (s' : σ) : Prop :=
  ok s a ∧ step s a s'

variable {init : σ → Prop} {step : σ → α → σ → Prop} {s s' : σ}

theorem Reachable.trans (hs : Reachable init step s) (h : ReflTransGen (Next step) s s') :
    Reachable init step s' := by
  obtain ⟨s₀, h₀, hrun⟩ := hs
  exact ⟨s₀, h₀, hrun.trans h⟩

theorem Reachable.invariant {I : σ → Prop} (hs : Reachable init step s)
    (hinit : ∀ s, init s → I s) (hstep : ∀ s a s', I s → step s a s' → I s') : I s := by
  obtain ⟨s₀, h₀, hrun⟩ := hs
  induction hrun with
  | refl => exact hinit _ h₀
  | tail _ h ih =>
      obtain ⟨a, ha⟩ := h
      exact hstep _ a _ ih ha

theorem Reachable.of_restrict {ok : σ → α → Prop} (hs : Reachable init (restrict ok step) s) :
    Reachable init step s := by
  obtain ⟨s₀, h₀, hrun⟩ := hs
  exact ⟨s₀, h₀, ReflTransGen.mono (fun _ _ ⟨a, _, h⟩ => ⟨a, h⟩) _ _ hrun⟩

section Exec
variable {ε : Type} {exec : σ → α → Except ε σ} {ok : σ → α → Bool}

/-- Runs the actions in order, as long as each one is allowed and succeeds. -/
def runIf (exec : σ → α → Except ε σ) (ok : σ → α → Bool) (s : σ) : List α → Option σ
  | [] => some s
  | a :: as =>
      if ok s a then
        match exec s a with
        | .ok s' => runIf exec ok s' as
        | .error _ => none
      else none

theorem reachable_of_runIf {as : List α}
    (hs : Reachable init (restrict (fun s a => ok s a = true) fun s a s' => exec s a = .ok s') s)
    (hrun : runIf exec ok s as = some s') :
    Reachable init (restrict (fun s a => ok s a = true) fun s a s' => exec s a = .ok s') s' := by
  induction as generalizing s with
  | nil => exact Option.some.inj hrun ▸ hs
  | cons a as ih =>
      rw [runIf] at hrun
      split at hrun
      · rename_i hok
        split at hrun
        · rename_i s₁ hexec
          exact ih (hs.trans (.single ⟨a, hok, hexec⟩)) hrun
        · cases hrun
      · cases hrun

end Exec

end Transition
