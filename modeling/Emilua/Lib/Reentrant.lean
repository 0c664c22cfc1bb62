import Mathlib.Tactic

/-!
A lock that its owner can take more than once. The last release hands it to the
first in line, if there is one. `since` is what the owner has done since it has
the lock; nothing else reads it.
-/
namespace Reentrant

inductive Turn where
  | lock
  | unlock
deriving DecidableEq, Repr

structure Lock (P : Type) where
  owner : Option P
  count : Nat
  pending : List P
  since : List Turn

variable {P : Type}

namespace Lock

def free : Lock P := ⟨none, 0, [], []⟩

def acquire (x : Lock P) (p : P) : Lock P := { x with owner := some p, count := 1, since := [.lock] }

def again (x : Lock P) : Lock P := { x with count := x.count + 1, since := x.since ++ [.lock] }

def wait (x : Lock P) (p : P) : Lock P := { x with pending := x.pending ++ [p] }

def release (x : Lock P) : Lock P :=
  if x.count - 1 ≠ 0 then { x with count := x.count - 1, since := x.since ++ [.unlock] }
  else
    match x.pending with
    | [] => { x with owner := none, count := 0, since := [] }
    | q :: rest => { owner := some q, count := 1, pending := rest, since := [.lock] }

/-- What party `p` can do; nobody takes the lock more than `limit` times. -/
inductive Step (limit : Nat) (x : Lock P) (p : P) : Lock P → Prop
  | acquire (hfree : x.owner = none) : Step limit x p (x.acquire p)
  | again (hp : x.owner = some p) (hlt : x.count < limit) : Step limit x p x.again
  | wait (q : P) (hq : x.owner = some q) (hne : q ≠ p) : Step limit x p (x.wait p)
  | release (hp : x.owner = some p) : Step limit x p x.release

structure Owned (limit : Nat) (x : Lock P) : Prop where
  free : x.owner = none ↔ x.count = 0
  held : x.pending ≠ [] → x.owner ≠ none
  counts : x.count + x.since.count .unlock = x.since.count .lock
  bound : x.count ≤ limit

variable {limit : Nat} {x y : Lock P} {p : P}

theorem release_more (h : x.count - 1 ≠ 0) :
    x.release = { x with count := x.count - 1, since := x.since ++ [.unlock] } := if_pos h

theorem release_last (h : ¬ x.count - 1 ≠ 0) (hp : x.pending = []) :
    x.release = { x with owner := none, count := 0, since := [] } := by
  rw [release, if_neg h, hp]

theorem release_next {rest : List P} (h : ¬ x.count - 1 ≠ 0) (hp : x.pending = p :: rest) :
    x.release = ⟨some p, 1, rest, [.lock]⟩ := by
  rw [release, if_neg h, hp]

theorem owned_free : (free : Lock P).Owned limit := ⟨⟨fun _ => rfl, fun _ => rfl⟩, nofun, rfl, Nat.zero_le _⟩

theorem Owned.pos (h : x.Owned limit) (hp : x.owner = some p) : 0 < x.count := by
  refine Nat.pos_of_ne_zero fun hzero => ?_
  rw [h.free.mpr hzero] at hp
  cases hp

theorem Step.owned (hpos : 0 < limit) (h : x.Owned limit) (hs : Step limit x p y) : y.Owned limit := by
  cases hs with
  | acquire hfree => exact ⟨by simp [Lock.acquire], nofun, rfl, hpos⟩
  | again hp hlt =>
      have hcounts := h.counts
      refine ⟨by simp [Lock.again, hp], h.held, ?_, hlt⟩
      simp only [Lock.again, List.count_append, List.count_singleton, beq_self_eq_true, if_true]
      rw [if_neg (by decide)]
      omega
  | wait q hq hne => exact ⟨h.free, fun _ => by simp [Lock.wait, hq], h.counts, h.bound⟩
  | release hp =>
      have hcounts := h.counts
      have hcount := h.pos hp
      have hbound := h.bound
      unfold Lock.release
      split
      · rename_i hmore
        refine ⟨by simp [hp, hmore], h.held, ?_, by simp only; omega⟩
        simp only [List.count_append, List.count_singleton, beq_self_eq_true, if_true]
        rw [if_neg (by decide)]
        omega
      · split
        · rename_i hpending
          exact ⟨by simp, fun hne => absurd hpending hne, rfl, Nat.zero_le _⟩
        · exact ⟨by simp, nofun, rfl, hpos⟩

end Lock

end Reentrant
