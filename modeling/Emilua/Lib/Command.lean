import Mathlib.Data.List.Basic

/-!
Commands that change a state or fail, and the rules for what they establish.
-/
namespace Command

variable {σ ε α : Type}

def skip (s : σ) : Except ε σ := .ok s

/-- One command, and the other one if it did not fail. -/
def seq (c d : σ → Except ε σ) (s : σ) : Except ε σ :=
  match c s with
  | .ok s' => d s'
  | .error e => .error e

def assign (f : σ → σ) (s : σ) : Except ε σ := .ok (f s)

def ifThen (b : σ → Bool) (c : σ → Except ε σ) (s : σ) : Except ε σ :=
  if b s then c s else .ok s

/-- A loop over a list. -/
def each (body : α → σ → Except ε σ) : List α → σ → Except ε σ
  | [] => skip
  | a :: l => seq (body a) (each body l)

/-- From a state with `P` the command ends in one with `Q`, or fails with `E`. -/
def Triple (E : ε → Prop) (P : σ → Prop) (c : σ → Except ε σ) (Q : σ → Prop) : Prop :=
  ∀ s, P s → match c s with
    | .ok s' => Q s'
    | .error e => E e

variable {E E' : ε → Prop} {P P' Q Q' R : σ → Prop} {c d : σ → Except ε σ}

theorem Triple.ok {s s' : σ} (h : Triple E P c Q) (hs : P s) (hok : c s = .ok s') : Q s' := by
  have hend := h s hs
  rw [hok] at hend
  exact hend

theorem Triple.error {s : σ} {e : ε} (h : Triple E P c Q) (hs : P s) (herror : c s = .error e) : E e := by
  have hend := h s hs
  rw [herror] at hend
  exact hend

theorem Triple.skip (h : ∀ s, P s → Q s) : Triple E P skip Q := h

theorem Triple.assign {f : σ → σ} (h : ∀ s, P s → Q (f s)) : Triple E P (assign f) Q := h

theorem Triple.seq (hc : Triple E P c Q) (hd : Triple E Q d R) : Triple E P (seq c d) R := by
  intro s hs
  unfold Command.seq
  cases hcs : c s with
  | ok s' => exact hd s' (hc.ok hs hcs)
  | error e => exact hc.error hs hcs

theorem Triple.ifThen {b : σ → Bool} (hc : Triple E (fun s => P s ∧ b s = true) c Q)
    (hno : ∀ s, P s → b s = false → Q s) : Triple E P (ifThen b c) Q := by
  intro s hs
  unfold Command.ifThen
  cases hb : b s with
  | true => exact hc s ⟨hs, hb⟩
  | false => exact hno s hs hb

theorem Triple.weaken (h : Triple E P c Q) (hpre : ∀ s, P' s → P s) (hpost : ∀ s, Q s → Q' s) :
    Triple E P' c Q' := by
  intro s hs
  cases hcs : c s with
  | ok s' => exact hpost s' (h.ok (hpre s hs) hcs)
  | error e => exact h.error (hpre s hs) hcs

/-- A loop keeps what holds for the part of the list that it has been through. -/
theorem Triple.each {I : List α → σ → Prop} {body : α → σ → Except ε σ} (todo : List α)
    (hbody : ∀ done a rest, done ++ a :: rest = l → Triple E (I done) (body a) (I (done ++ [a])))
    (done : List α) (hl : done ++ todo = l) : Triple E (I done) (each body todo) (I l) := by
  induction todo generalizing done with
  | nil =>
      rw [← hl, List.append_nil]
      exact .skip fun _ h => h
  | cons a todo ih =>
      refine .seq (hbody done a todo hl) (ih (done ++ [a]) ?_)
      rw [← hl, List.append_assoc, List.singleton_append]

end Command
