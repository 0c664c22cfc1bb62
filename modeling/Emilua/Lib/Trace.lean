import Mathlib.Tactic

/-!
Runs of deterministic machines that share their states and actions, with what
each step leaves and gives. A family of machines has the runs of one of them as
long as the steps on the way are its steps.
-/
namespace Trace

variable {σ α β ι : Type}

def trace (step : σ → α → σ × β) (s : σ) : List α → List (σ × β)
  | [] => []
  | a :: as => step s a :: trace step (step s a).1 as

/-- Every step of the run is taken where `ok` holds. -/
def Along (step : σ → α → σ × β) (ok : σ → α → Prop) (s : σ) : List α → Prop
  | [] => True
  | a :: as => ok s a ∧ Along step ok (step s a).1 as

theorem Along.congr {step : σ → α → σ × β} {ok ok' : σ → α → Prop} (h : ∀ s a, ok s a ↔ ok' s a) (s : σ)
    (as : List α) : Along step ok s as ↔ Along step ok' s as := by
  induction as generalizing s with
  | nil => exact Iff.rfl
  | cons a as ih => exact and_congr (h s a) (ih _)

theorem trace_iff {step : ι → σ → α → σ × β} {spec : σ → α → σ × β} (s : σ) (as : List α) :
    (∀ i, trace (step i) s as = trace spec s as) ↔ Along spec (fun s a => ∀ i, step i s a = spec s a) s as := by
  induction as generalizing s with
  | nil => exact iff_of_true (fun _ => rfl) trivial
  | cons a as ih =>
      constructor
      · intro h
        have hstep (i : ι) : step i s a = spec s a := (List.cons.inj (h i)).1
        refine ⟨hstep, (ih _).mp fun i => ?_⟩
        have hrest := (List.cons.inj (h i)).2
        rwa [hstep i] at hrest
      · rintro ⟨hstep, hrest⟩ i
        rw [trace, trace, hstep i, (ih _).mpr hrest i]

end Trace
