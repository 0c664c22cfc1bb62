import Mathlib.Tactic

/-!
Programs that may not end or raise an error, run with fuel, and the rules by
which they come to what a total function says. That function may also say that
what is read ends too early, which nothing is asserted about.
-/
namespace Fuel

/-- The end of a run; `none` is one that is out of fuel. -/
abbrev Run (ε α : Type) := Option (Except ε α)

variable {ε α β γ δ : Type}

def andThen (x : Run ε α) (k : α → Run ε β) : Run ε β :=
  match x with
  | none => none
  | some (.error e) => some (.error e)
  | some (.ok a) => k a

/-- From some fuel on, the run ends so. -/
def Settles (run : Nat → Run ε α) (x : Except ε α) : Prop := ∃ n, ∀ fuel, n ≤ fuel → run fuel = some x

theorem Settles.succ {run run' : Nat → Run ε α} {x : Except ε α} (hrun : ∀ fuel, run (fuel + 1) = run' fuel)
    (h : Settles run' x) : Settles run x := by
  obtain ⟨n, hn⟩ := h
  refine ⟨n + 1, fun fuel hfuel => ?_⟩
  obtain ⟨m, rfl⟩ : ∃ m, fuel = m + 1 := ⟨fuel - 1, by omega⟩
  rw [hrun, hn m (by omega)]

theorem settles_const (x : Except ε α) : Settles (fun _ => some x) x := ⟨0, fun _ _ => rfl⟩

theorem Settles.andThen_ok {run : Nat → Run ε α} {k : Nat → α → Run ε β} {a : α} {x : Except ε β}
    (h : Settles run (.ok a)) (hk : Settles (fun fuel => k fuel a) x) :
    Settles (fun fuel => andThen (run fuel) (k fuel)) x := by
  obtain ⟨n, hn⟩ := h
  obtain ⟨m, hm⟩ := hk
  refine ⟨max n m, fun fuel hfuel => ?_⟩
  simp only [hn fuel (by omega), andThen]
  exact hm fuel (by omega)

theorem Settles.andThen_error {run : Nat → Run ε α} {k : Nat → α → Run ε β} {e : ε} (h : Settles run (.error e)) :
    Settles (fun fuel => andThen (run fuel) (k fuel)) (.error e) := by
  obtain ⟨n, hn⟩ := h
  refine ⟨n, fun fuel hfuel => ?_⟩
  simp only [hn fuel hfuel, andThen]

inductive Fault (ε : Type) where
  | unfinished
  | raised (e : ε)

/-- The run comes to `r`, seen through `view`, unless `r` is that something is unfinished. -/
def Yields (run : Nat → Run ε β) (view : α → β) : Except (Fault ε) α → Prop
  | .ok a => Settles run (.ok (view a))
  | .error (.raised e) => Settles run (.error e)
  | .error .unfinished => True

variable {run run' : Nat → Run ε β} {view : α → β} {r : Except (Fault ε) α}

theorem Yields.succ (hrun : ∀ fuel, run (fuel + 1) = run' fuel) (h : Yields run' view r) : Yields run view r := by
  cases r with
  | ok a => exact Settles.succ hrun h
  | error fault =>
      cases fault with
      | unfinished => trivial
      | raised e => exact Settles.succ hrun h

theorem Yields.andThen {k : Nat → β → Run ε δ} {view' : γ → δ} {f : α → Except (Fault ε) γ} (h : Yields run view r)
    (hk : ∀ a, r = .ok a → Yields (fun fuel => k fuel (view a)) view' (f a)) :
    Yields (fun fuel => andThen (run fuel) (k fuel)) view' (r >>= f) := by
  cases r with
  | ok a =>
      have hyields := hk a rfl
      change Yields _ view' (f a)
      cases hf : f a with
      | ok c =>
          rw [hf] at hyields
          exact Settles.andThen_ok h hyields
      | error fault =>
          rw [hf] at hyields
          cases fault with
          | unfinished => trivial
          | raised e => exact Settles.andThen_ok h hyields
  | error fault =>
      cases fault with
      | unfinished => trivial
      | raised e => exact Settles.andThen_error h

theorem Yields.after {run : Nat → Run ε γ} {k : Nat → γ → Run ε β} {c : γ} (h : Settles run (.ok c))
    (hk : Yields (fun fuel => k fuel c) view r) : Yields (fun fuel => Fuel.andThen (run fuel) (k fuel)) view r :=
  @Yields.andThen ε Unit γ α β run (fun _ => c) (.ok ()) k view (fun _ => r) h fun _ _ => hk

theorem Yields.stop {run : Nat → Run ε γ} {k : Nat → γ → Run ε β} {fault : Fault ε}
    (h : Yields run id (.error fault)) : Yields (fun fuel => Fuel.andThen (run fuel) (k fuel)) view (.error fault) :=
  @Yields.andThen ε γ γ α β run id (.error fault) k view (fun _ => .error fault) h nofun

theorem Yields.map {run : Nat → Run ε β} {view : γ → β} {f : α → γ} (h : Yields run (fun a => view (f a)) r) :
    Yields run view (r >>= fun a => .ok (f a)) := by
  cases r with
  | ok a => exact h
  | error fault => cases fault <;> exact h

/-- What the run comes to is what was said exactly if that is no unfinished text. -/
theorem Yields.settles_iff {run : Nat → Run ε α} {r : Except (Fault ε) α} (h : Yields run id r) :
    (∃ x, Settles run x ∧ r = x.mapError Fault.raised) ↔ r ≠ .error .unfinished := by
  constructor
  · rintro ⟨x, -, rfl⟩ hx
    cases x <;> cases hx
  · intro hr
    cases r with
    | ok a => exact ⟨.ok a, h, rfl⟩
    | error fault =>
        cases fault with
        | unfinished => exact absurd rfl hr
        | raised e => exact ⟨.error e, h, rfl⟩

end Fuel
