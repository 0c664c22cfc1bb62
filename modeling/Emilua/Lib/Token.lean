import Mathlib.Tactic
import Mathlib.Algebra.BigOperators.Group.Finset.Basic
import Mathlib.Data.Multiset.Count

/-!
Accounts over the stores `0, …, n - 1`: what each store holds, summed up. An
update of one store changes the total by what it changes in that store, so a
sequence of updates is accounted for one by one, whether or not two of them are
of the same store.

Parties own one token each. `Located` ties the total of the tokens to a
function that says where each token is: no token is at two places, or at one
place twice, and moving a token is the only change there is to account for.
-/
namespace Token
open Finset

section Total
variable {M W : Type} [AddCommMonoid M]

def total (n : Nat) (μ : Nat → W → M) (w : Nat → W) : M := ∑ v ∈ range n, μ v (w v)

variable {n v : Nat} (μ : Nat → W → M) (w : Nat → W)

theorem total_update (hv : v < n) (x : W) :
    total n μ (Function.update w v x) + μ v (w v) = total n μ w + μ v x := by
  have hnew := add_sum_erase (range n) (fun u => μ u (Function.update w v x u)) (mem_range.mpr hv)
  have hold := add_sum_erase (range n) (fun u => μ u (w u)) (mem_range.mpr hv)
  have hrest : ∑ u ∈ (range n).erase v, μ u (Function.update w v x u) =
      ∑ u ∈ (range n).erase v, μ u (w u) :=
    sum_congr rfl fun u hu => by rw [Function.update_of_ne (ne_of_mem_erase hu)]
  rw [Function.update_self, hrest] at hnew
  rw [total, total, ← hnew, ← hold]
  abel

theorem total_congr {w' : Nat → W} (h : ∀ v < n, μ v (w' v) = μ v (w v)) :
    total n μ w' = total n μ w :=
  sum_congr rfl fun v hv => h v (mem_range.mp hv)

/-- A new store that holds nothing. -/
theorem total_succ {x : W} (hx : μ n x = 0) :
    total (n + 1) μ (Function.update w n x) = total n μ w := by
  rw [total, sum_range_succ, Function.update_self, hx, add_zero]
  exact total_congr μ w fun v hv => by rw [Function.update_of_ne (Nat.ne_of_lt hv)]

end Total

section Located
variable {L P : Type}

/-- The token of `p`, if it is anywhere. -/
def at? (p : P) : Option L → Multiset (L × P)
  | none => 0
  | some l => {(l, p)}

@[simp] theorem at?_none (p : P) : at? (L := L) p none = 0 := rfl

@[simp] theorem at?_some (p : P) (l : L) : at? p (some l) = {(l, p)} := rfl

variable [DecidableEq L] [DecidableEq P]

def Located (held : Multiset (L × P)) (place : P → Option L) : Prop :=
  ∀ l p, held.count (l, p) = if place p = some l then 1 else 0

theorem count_at? (p q : P) (l : L) (o : Option L) :
    (at? p o).count (l, q) = if q = p ∧ o = some l then 1 else 0 := by
  cases o with
  | none => simp
  | some k =>
      rw [at?_some, Multiset.count_singleton]
      grind

namespace Located
variable {held held' : Multiset (L × P)} {place : P → Option L} {l : L} {p : P}

theorem place_of_mem (h : Located held place) (hmem : (l, p) ∈ held) : place p = some l := by
  have hcount := Multiset.count_pos.mpr hmem
  rw [h l p] at hcount
  by_contra hno
  simp [hno] at hcount

theorem mem_of_place (h : Located held place) (hp : place p = some l) : (l, p) ∈ held := by
  rw [← Multiset.count_pos, h l p, if_pos hp]
  exact Nat.one_pos

theorem move (h : Located held place) {o : Option L}
    (hmove : held' + at? p (place p) = held + at? p o) :
    Located held' (Function.update place p o) := by
  intro l q
  have hcount := congrArg (Multiset.count (l, q)) hmove
  rw [Multiset.count_add, Multiset.count_add, count_at?, count_at?, h l q] at hcount
  by_cases hq : q = p
  · subst hq
    rw [Function.update_self]
    simp only [true_and] at hcount
    omega
  · rw [Function.update_of_ne hq]
    simpa [hq] using hcount

end Located

end Located

end Token
