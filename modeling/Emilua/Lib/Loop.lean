import Mathlib.Tactic

/-!
A counted loop whose body may go on, leave the loop, or leave the enclosing
function, and the rule that carries a relation between two such loops through
their runs.
-/
namespace Loop

inductive Flow (σ ε : Type) where
  | next (s : σ)
  | stop (s : σ)
  | exit (e : ε)

variable {σ ε τ δ : Type}

def run (body : Nat → σ → Flow σ ε) : Nat → Nat → σ → Except ε σ
  | 0, _, s => .ok s
  | n + 1, i, s =>
      match body i s with
      | .next s => run body n (i + 1) s
      | .stop s => .ok s
      | .exit e => .error e

/-- Two bodies take the same way out; `P`, `Q` and `E` relate what they carry. -/
inductive Flow.Related (P Q : σ → τ → Prop) (E : ε → δ → Prop) : Flow σ ε → Flow τ δ → Prop where
  | next {s t} (h : P s t) : Flow.Related P Q E (.next s) (.next t)
  | stop {s t} (h : Q s t) : Flow.Related P Q E (.stop s) (.stop t)
  | exit {e d} (h : E e d) : Flow.Related P Q E (.exit e) (.exit d)

inductive Ended (Q : σ → τ → Prop) (E : ε → δ → Prop) : Except ε σ → Except δ τ → Prop where
  | ok {s t} (h : Q s t) : Ended Q E (.ok s) (.ok t)
  | error {e d} (h : E e d) : Ended Q E (.error e) (.error d)

theorem run_related {body : Nat → σ → Flow σ ε} {body' : Nat → τ → Flow τ δ}
    {P : Nat → σ → τ → Prop} {Q : σ → τ → Prop} {E : ε → δ → Prop} (n i : Nat) (s : σ) (t : τ)
    (hbody : ∀ j s t, j < i + n → P j s t →
      Flow.Related (P (j + 1)) Q E (body j s) (body' j t))
    (hlast : ∀ s t, P (i + n) s t → Q s t) (h : P i s t) :
    Ended Q E (run body n i s) (run body' n i t) := by
  induction n generalizing i s t with
  | zero => exact .ok (hlast s t h)
  | succ n ih =>
      have hstep := hbody i s t (by omega) h
      unfold run
      cases hb : body i s with
      | next s' =>
          rw [hb] at hstep
          obtain ⟨t', hb', hP⟩ : ∃ t', body' i t = .next t' ∧ P (i + 1) s' t' := by
            cases hb' : body' i t <;> rw [hb'] at hstep <;> cases hstep
            exact ⟨_, rfl, by assumption⟩
          rw [hb']
          apply ih (i + 1) s' t' _ _ hP
          · exact fun j s t hlt => hbody j s t (by omega)
          · intro s t hs
            exact hlast s t (by rwa [show i + (n + 1) = i + 1 + n by omega])
      | stop s' =>
          rw [hb] at hstep
          cases hb' : body' i t <;> rw [hb'] at hstep <;> cases hstep
          exact .ok (by assumption)
      | exit e =>
          rw [hb] at hstep
          cases hb' : body' i t <;> rw [hb'] at hstep <;> cases hstep
          exact .error (by assumption)

theorem run_congr {body body' : Nat → σ → Flow σ ε} {I : Nat → σ → Prop} (n i : Nat) (s : σ)
    (heq : ∀ j s, j < i + n → I j s → body j s = body' j s)
    (hnext : ∀ j s s', j < i + n → I j s → body j s = .next s' → I (j + 1) s') (h : I i s) :
    run body n i s = run body' n i s := by
  induction n generalizing i s with
  | zero => rfl
  | succ n ih =>
      unfold run
      rw [← heq i s (by omega) h]
      cases hb : body i s with
      | next s' =>
          apply ih (i + 1) s'
          · exact fun j s hj => heq j s (by omega)
          · exact fun j s s' hj => hnext j s s' (by omega)
          · exact hnext i s s' (by omega) h hb
      | stop _ | exit _ => rfl

end Loop
