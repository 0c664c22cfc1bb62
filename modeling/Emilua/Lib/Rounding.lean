import Mathlib.Tactic
import Mathlib.Algebra.Order.Floor.Ring

/-!
Rounding to the nearest integer, ties to the even one, and the way of computing
it from the integers on the two sides.
-/
namespace Rounding

variable {α : Type} [Field α] [LinearOrder α]

/-- The choice between two neighbours of `d`. -/
def nearer (d : α) (t0 t1 : Int) : Int :=
  if d - t0 = t1 - d then (if t0 % 2 = 1 then t1 else t0)
  else if d - t0 < t1 - d then t0 else t1

theorem nearer_mem (d : α) (t0 t1 : Int) : nearer d t0 t1 = t0 ∨ nearer d t0 t1 = t1 := by
  rw [nearer]
  split
  · split
    · exact .inr rfl
    · exact .inl rfl
  · split
    · exact .inl rfl
    · exact .inr rfl

section
variable [IsStrictOrderedRing α]

theorem nearer_left {d : α} {t0 t1 : Int} (hd : d = t0) (hlt : t0 < t1) : nearer d t0 t1 = t0 := by
  have hcast : (t0 : α) < t1 := Int.cast_lt.mpr hlt
  rw [nearer, hd, if_neg (by intro h; linarith), if_pos (by linarith)]

/-- A neighbour on the wrong side is as near as any. -/
theorem nearer_right {d : α} {t0 t1 : Int} (h0 : (t0 : α) ≤ d) (h1 : (t1 : α) < d) : nearer d t0 t1 = t1 := by
  rw [nearer, if_neg (by intro h; linarith), if_neg (by intro h; linarith)]

end

variable [FloorRing α]

def roundEven (d : α) : Int := nearer d ⌊d⌋ (⌊d⌋ + 1)

variable [IsStrictOrderedRing α]

theorem roundEven_intCast (n : Int) : roundEven (n : α) = n := by
  rw [roundEven, Int.floor_intCast]
  exact nearer_left rfl (by omega)

end Rounding
