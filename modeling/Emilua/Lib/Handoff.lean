import Mathlib.Tactic

/-!
A lock that is handed over. Who finds it taken waits in line, and an unlock
gives the lock to the first in line, if there is one, without freeing it. Where
only holders unlock there is at most one, and the lock goes round in the order
of arrival.
-/
namespace Handoff

/-- `arrivals` and `handed` are the parties that have had to wait and those that
have been given the lock by another, in order. -/
structure Lock (P : Type) where
  locked : Bool
  holders : List P
  pending : List P
  arrivals : List P
  handed : List P

variable {P : Type} [DecidableEq P]

namespace Lock

def free : Lock P := ⟨false, [], [], [], []⟩

def acquire (x : Lock P) (p : P) : Lock P := { x with locked := true, holders := x.holders ++ [p] }

def wait (x : Lock P) (p : P) : Lock P := { x with pending := x.pending ++ [p], arrivals := x.arrivals ++ [p] }

def unlock (x : Lock P) (p : P) : Lock P :=
  match x.pending with
  | [] => { x with locked := false, holders := x.holders.erase p }
  | q :: rest => { x with pending := rest, holders := x.holders.erase p ++ [q], handed := x.handed ++ [q] }

/-- What party `p` can do, if it unlocks only what it holds. -/
inductive Step (x : Lock P) (p : P) : Lock P → Prop
  | acquire (hfree : x.locked = false) : Step x p (x.acquire p)
  | wait (hlocked : x.locked = true) : Step x p (x.wait p)
  | unlock (hp : p ∈ x.holders) : Step x p (x.unlock p)

structure Fair (x : Lock P) : Prop where
  free : x.locked = false → x.holders = [] ∧ x.pending = []
  held : x.locked = true → ∃ p, x.holders = [p]
  order : x.arrivals = x.handed ++ x.pending

omit [DecidableEq P] in
theorem fair_free : (free : Lock P).Fair := ⟨fun _ => ⟨rfl, rfl⟩, nofun, rfl⟩

variable {x y : Lock P} {p q : P}

omit [DecidableEq P] in
theorem Fair.locked (h : x.Fair) (hp : p ∈ x.holders) : x.locked = true := by
  by_contra hno
  rw [(h.free (by simpa using hno)).1] at hp
  cases hp

omit [DecidableEq P] in
theorem Fair.holders_eq (h : x.Fair) (hp : p ∈ x.holders) : x.holders = [p] := by
  obtain ⟨q, hq⟩ := h.held (h.locked hp)
  rw [hq, List.mem_singleton] at hp
  rw [hq, hp]

theorem Step.fair (h : x.Fair) (hs : Step x p y) : y.Fair := by
  cases hs with
  | acquire hfree =>
      obtain ⟨hholders, hpending⟩ := h.free hfree
      exact ⟨nofun, fun _ => ⟨p, by simp [Lock.acquire, hholders]⟩, h.order⟩
  | wait hlocked =>
      refine ⟨fun hfree => absurd (hlocked.symm.trans hfree) nofun, h.held, ?_⟩
      simp only [Lock.wait, h.order, List.append_assoc]
  | unlock hp =>
      have hholders := h.holders_eq hp
      have hlocked := h.locked hp
      unfold Lock.unlock
      split
      · rename_i hpending
        exact ⟨fun _ => ⟨by simp [hholders], hpending⟩, nofun, h.order⟩
      · rename_i q rest hpending
        refine ⟨fun hfree => absurd (hlocked.symm.trans hfree) nofun, fun _ => ⟨q, by simp [hholders]⟩, ?_⟩
        have horder := h.order
        rw [hpending] at horder
        simpa using horder

/-- The lock stays with its holder whatever others do. -/
theorem Step.holders_eq (h : x.Fair) (hs : Step x p y) (hq : q ∈ x.holders) (hne : p ≠ q) : y.holders = x.holders := by
  cases hs with
  | acquire hfree => exact absurd ((h.locked hq).symm.trans hfree) nofun
  | wait => rfl
  | unlock hp =>
      have hp' := h.holders_eq hp
      rw [hp', List.mem_singleton] at hq
      exact absurd hq.symm hne

end Lock

end Handoff
