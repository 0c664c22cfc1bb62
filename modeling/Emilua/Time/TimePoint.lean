import Emilua.Lib.Rounding
import Emilua.Lib.Trace

/-!
Time points of `steady_clock` and `system_clock`. A number of seconds is an exact
rational here, and a time point a 64-bit number of ticks. The operations are
written over the arithmetic they use: the machine's, or the exact one.
-/
namespace Emilua.Time
open Rounding Trace

inductive Clock where
  | steady
  | system
  deriving DecidableEq, Repr

def Fits (z : Int) : Prop := -2 ^ 63 ≤ z ∧ z < 2 ^ 63

instance : DecidablePred Fits := fun _ => inferInstanceAs (Decidable (_ ∧ _))

abbrev Ticks := {z : Int // Fits z}

structure TimePoint where
  clock : Clock
  ticks : Ticks
  deriving DecidableEq

inductive Number where
  | nan
  | infinite (negative : Bool)
  | finite (q : ℚ)

/-- What stands on the Lua stack. A string may be one that reads as a number. -/
inductive Arg where
  | userdata (ref : Nat)
  | number (n : Number)
  | string (n : Option Number)
  | other

inductive Err where
  | invalidArgument (arg : Nat)
  | argumentOutOfDomain (arg : Nat)
  | badArgument (arg : Nat)
  | valueTooLarge
  deriving DecidableEq

/-- What a call returns. A difference is handed to Lua as seconds; it is kept in ticks here. -/
inductive Ret where
  | nothing
  | timePoint (ref : Nat)
  | difference (ticks : Ticks)
  | boolean (b : Bool)
  deriving DecidableEq

/-- The time points that have been made, by the userdata they are in. -/
abbrev State := List TimePoint

abbrev Outcome := State × Except Err Ret

/-- The argument is a time point of the clock: its metatable is the clock's. -/
def timePointArg (s : State) (clock : Clock) : Arg → Option (Nat × Ticks)
  | .userdata ref =>
      match s[ref]? with
      | some tp => if tp.clock = clock then some (ref, tp.ticks) else none
      | none => none
  | _ => none

def checknumber : Arg → Option Number
  | .number n => some n
  | .string n => n
  | _ => none

inductive Sign where
  | plus
  | minus

def Sign.apply (sign : Sign) (t r : Int) : Int :=
  match sign with
  | .plus => t + r
  | .minus => t - r

/-- `shift` moves a tick count by a duration, given in ticks that are not rounded
yet; `difference` is the duration between two counts. -/
structure Arithmetic where
  shift : Sign → Ticks → ℚ → Except Err Ticks
  difference : Ticks → Ticks → Except Err Ticks

/-- A new userdata. -/
def make (clock : Clock) (s : State) (t : Ticks) : Outcome := (s ++ [⟨clock, t⟩], .ok (.timePoint s.length))

/-- An error leaves the time points as they are. -/
def settle (s : State) (ok : Ticks → Outcome) : Except Err Ticks → Outcome
  | .error e => (s, .error e)
  | .ok t => ok t

/-! The operations. `ticksOf` is the conversion of seconds to ticks. -/

section
variable (A : Arithmetic) (ticksOf : Clock → ℚ → ℚ)

/-- The checks of the operand that all operations share, and the sum. -/
def shiftBy (sign : Sign) (clock : Clock) (t : Ticks) : Number → Except Err Ticks
  | .nan | .infinite _ => .error (.argumentOutOfDomain 2)
  | .finite q => A.shift sign t (ticksOf clock q)

/-- `add` and `sub` -/
def shiftInPlace (sign : Sign) (clock : Clock) (s : State) (a b : Arg) : Outcome :=
  match timePointArg s clock a with
  | none => (s, .error (.invalidArgument 1))
  | some (ref, t) =>
      match checknumber b with
      | none => (s, .error (.badArgument 2))
      | some n => settle s (fun t' => (s.set ref ⟨clock, t'⟩, .ok .nothing)) (shiftBy A ticksOf sign clock t n)

/-- A new time point, from an operand that is a number. -/
def shiftToNew (sign : Sign) (clock : Clock) (s : State) (t : Ticks) (n : Number) : Outcome :=
  settle s (make clock s) (shiftBy A ticksOf sign clock t n)

/-- `__add` -/
def mtAdd (clock : Clock) (s : State) (a b : Arg) : Outcome :=
  match timePointArg s clock a with
  | none => (s, .error (.invalidArgument 1))
  | some (_, t) =>
      match checknumber b with
      | none => (s, .error (.badArgument 2))
      | some n => shiftToNew A ticksOf .plus clock s t n

/-- `__sub`, which asks for the type of its operand and takes no string for a number. -/
def mtSub (clock : Clock) (s : State) (a b : Arg) : Outcome :=
  match timePointArg s clock a with
  | none => (s, .error (.invalidArgument 1))
  | some (_, t) =>
      match b with
      | .number n => shiftToNew A ticksOf .minus clock s t n
      | .userdata _ =>
          match timePointArg s clock b with
          | none => (s, .error (.invalidArgument 2))
          | some (_, t2) => settle s (fun d => (s, .ok (.difference d))) (A.difference t t2)
      | _ => (s, .error (.invalidArgument 2))

def steadyClockTimePointAdd := shiftInPlace A ticksOf .plus .steady
def steadyClockTimePointSub := shiftInPlace A ticksOf .minus .steady
def steadyClockTimePointMtAdd := mtAdd A ticksOf .steady
def steadyClockTimePointMtSub := mtSub A ticksOf .steady
def systemClockTimePointAdd := shiftInPlace A ticksOf .plus .system
def systemClockTimePointSub := shiftInPlace A ticksOf .minus .system
def systemClockTimePointMtAdd := mtAdd A ticksOf .system
def systemClockTimePointMtSub := mtSub A ticksOf .system

/-- `__lt` and `__le` -/
def mtCompare (rel : Int → Int → Bool) (clock : Clock) (s : State) (a b : Arg) : Outcome :=
  match timePointArg s clock a with
  | none => (s, .error (.invalidArgument 1))
  | some (_, t1) =>
      match timePointArg s clock b with
      | none => (s, .error (.invalidArgument 2))
      | some (_, t2) => (s, .ok (.boolean (rel t1.1 t2.1)))

def steadyClockTimePointMtLt := mtCompare (fun t1 t2 => decide (t1 < t2)) .steady
def steadyClockTimePointMtLe := mtCompare (fun t1 t2 => decide (t1 ≤ t2)) .steady
def systemClockTimePointMtLt := mtCompare (fun t1 t2 => decide (t1 < t2)) .system
def systemClockTimePointMtLe := mtCompare (fun t1 t2 => decide (t1 ≤ t2)) .system

/-- `==`. The metamethod is called for two time points of one clock; every other
two operands of different identity are unequal. -/
def mtEq (s : State) (ref1 ref2 : Nat) : Outcome :=
  match s[ref1]?, s[ref2]? with
  | some tp1, some tp2 =>
      if tp1.clock = tp2.clock then (s, .ok (.boolean (decide (tp1.ticks.1 = tp2.ticks.1))))
      else (s, .ok (.boolean false))
  | _, _ => (s, .ok (.boolean (decide (ref1 = ref2))))

inductive Action where
  | epoch (clock : Clock)
  /-- `reading` is what the clock says. -/
  | now (clock : Clock) (reading : Ticks)
  | add (clock : Clock) (a b : Arg)
  | sub (clock : Clock) (a b : Arg)
  | mtAdd (clock : Clock) (a b : Arg)
  | mtSub (clock : Clock) (a b : Arg)
  | lt (clock : Clock) (a b : Arg)
  | le (clock : Clock) (a b : Arg)
  | eq (ref1 ref2 : Nat)

def step (s : State) : Action → Outcome
  | .epoch clock => make clock s ⟨0, by decide⟩
  | .now clock reading => make clock s reading
  | .add .steady a b => steadyClockTimePointAdd A ticksOf s a b
  | .add .system a b => systemClockTimePointAdd A ticksOf s a b
  | .sub .steady a b => steadyClockTimePointSub A ticksOf s a b
  | .sub .system a b => systemClockTimePointSub A ticksOf s a b
  | .mtAdd .steady a b => steadyClockTimePointMtAdd A ticksOf s a b
  | .mtAdd .system a b => systemClockTimePointMtAdd A ticksOf s a b
  | .mtSub .steady a b => steadyClockTimePointMtSub A ticksOf s a b
  | .mtSub .system a b => systemClockTimePointMtSub A ticksOf s a b
  | .lt .steady a b => steadyClockTimePointMtLt s a b
  | .lt .system a b => systemClockTimePointMtLt s a b
  | .le .steady a b => steadyClockTimePointMtLe s a b
  | .le .system a b => systemClockTimePointMtLe s a b
  | .eq ref1 ref2 => mtEq s ref1 ref2

end

/-! The machine's arithmetic. -/

/-- What a 64-bit integer holds after a computation. The language leaves open
what that is where the result does not fit. -/
structure Machine where
  narrow : Int → Ticks
  narrow_fits : ∀ t : Ticks, narrow t.1 = t

namespace Machine
variable (M : Machine)

def durationCast (d : ℚ) : Ticks := M.narrow (if d < 0 then ⌈d⌉ else ⌊d⌋)

def floor (d : ℚ) : Ticks :=
  let t := M.durationCast d
  if (t.1 : ℚ) > d then M.narrow (t.1 - 1) else t

/-- `std::chrono::round` -/
def round (d : ℚ) : Ticks :=
  let t0 := M.floor d
  let t1 := M.narrow (t0.1 + 1)
  let diff0 := d - t0.1
  let diff1 := t1.1 - d
  if diff0 = diff1 then (if t0.1 % 2 = 1 then t1 else t0)
  else if diff0 < diff1 then t0 else t1

/-- The bounds that the operand is compared with are those of a duration as
floating-point numbers: 2^63 is the one next to `max()`. -/
def shift (sign : Sign) (t : Ticks) (d : ℚ) : Except Err Ticks :=
  if 2 ^ 63 < d ∨ d < -2 ^ 63 then .error .valueTooLarge
  else .ok (M.narrow (sign.apply t.1 (M.round d).1))

def arithmetic : Arithmetic where
  shift := M.shift
  difference t t2 := .ok (M.narrow (t.1 - t2.1))

end Machine

/-! Exact arithmetic, where what does not fit is an error. -/

def fit (z : Int) : Except Err Ticks := if h : Fits z then .ok ⟨z, h⟩ else .error .valueTooLarge

def exactShift (sign : Sign) (t : Ticks) (d : ℚ) : Except Err Ticks :=
  if -2 ^ 63 ≤ d ∧ d ≤ 2 ^ 63 - 1 then fit (sign.apply t.1 (roundEven d)) else .error .valueTooLarge

def exact : Arithmetic where
  shift := exactShift
  difference t t2 := fit (t.1 - t2.1)

/-- The operand is refused, or it and the result fit. -/
def Shiftable (sign : Sign) (t : Ticks) (d : ℚ) : Prop :=
  (d < -2 ^ 63 ∨ 2 ^ 63 < d) ∨ (d < 2 ^ 63 - 1 ∧ Fits (sign.apply t.1 (roundEven d)))

section
variable {M : Machine} {sign : Sign} {t : Ticks} {d : ℚ}

theorem Machine.narrow_eq {z : Int} (h : Fits z) : (M.narrow z).1 = z := by
  rw [M.narrow_fits ⟨z, h⟩]

theorem fit_ok {z : Int} (h : Fits z) : fit z = .ok ⟨z, h⟩ := dif_pos h

theorem fit_error {z : Int} (h : ¬ Fits z) : fit z = .error .valueTooLarge := dif_neg h

theorem fits_floor (hmin : -2 ^ 63 ≤ d) (hmax : d < 2 ^ 63) : Fits ⌊d⌋ := by
  constructor
  · exact Int.le_floor.mpr (by exact_mod_cast hmin)
  · exact Int.floor_lt.mpr (by exact_mod_cast hmax)

theorem Machine.floor_eq (hmin : -2 ^ 63 ≤ d) (hmax : d < 2 ^ 63) : (M.floor d).1 = ⌊d⌋ := by
  have hfits := fits_floor hmin hmax
  rw [Machine.floor, Machine.durationCast]
  by_cases hneg : d < 0
  · have hceil : Fits ⌈d⌉ := by
      constructor
      · exact hfits.1.trans (Int.floor_le_ceil d)
      · exact lt_of_le_of_lt (Int.ceil_le.mpr (by exact_mod_cast hneg.le)) (by norm_num)
    rw [if_pos hneg]
    simp only [M.narrow_eq hceil]
    by_cases hgt : ((⌈d⌉ : Int) : ℚ) > d
    · have hsub : ⌈d⌉ - 1 = ⌊d⌋ := by
        refine le_antisymm (Int.le_floor.mpr ?_) ?_
        · have := Int.ceil_lt_add_one d
          push_cast
          linarith
        · have := Int.floor_lt.mpr hgt
          omega
      rw [if_pos hgt, hsub, M.narrow_eq hfits]
    · have heq : ((⌈d⌉ : Int) : ℚ) = d := le_antisymm (not_lt.mp hgt) (Int.le_ceil d)
      rw [if_neg hgt, M.narrow_eq hceil]
      conv_rhs => rw [← heq, Int.floor_intCast]
  · rw [if_neg hneg]
    simp only [M.narrow_eq hfits]
    rw [if_neg (not_lt.mpr (Int.floor_le d)), M.narrow_eq hfits]

theorem Machine.round_nearer (d : ℚ) :
    (M.round d).1 = nearer d (M.floor d).1 (M.narrow ((M.floor d).1 + 1)).1 := by
  rw [Machine.round, nearer]
  split
  · split <;> rfl
  · split <;> rfl

/-- In the range, the machine rounds as it should. -/
theorem Machine.round_eq (hmin : -2 ^ 63 ≤ d) (hmax : d < 2 ^ 63 - 1) : (M.round d).1 = roundEven d := by
  have hfloor : (M.floor d).1 = ⌊d⌋ := M.floor_eq hmin (by linarith)
  have hnext : Fits (⌊d⌋ + 1) := by
    have hfits : Fits ⌊d⌋ := fits_floor hmin (by linarith)
    have hlt : ⌊d⌋ < 2 ^ 63 - 1 := Int.floor_lt.mpr (by exact_mod_cast hmax)
    exact ⟨by linarith [hfits.1], by linarith⟩
  rw [M.round_nearer, hfloor, M.narrow_eq hnext, roundEven]

theorem Machine.shift_exact (M : Machine) (h : Shiftable sign t d) : M.shift sign t d = exactShift sign t d := by
  rw [Machine.shift, exactShift]
  rcases h with hout | ⟨hmax, hfits⟩
  · rw [if_pos hout.symm, if_neg]
    rintro ⟨hmin, hmax⟩
    rcases hout with h | h
    · exact absurd hmin (not_le.mpr h)
    · linarith
  · by_cases hmin : d < -2 ^ 63
    · rw [if_pos (.inr hmin), if_neg fun h => absurd h.1 (not_le.mpr hmin)]
    · have hin : ¬ (2 ^ 63 < d ∨ d < -2 ^ 63) := by
        rintro (h | h)
        · linarith
        · exact hmin h
      rw [if_neg hin, if_pos ⟨not_lt.mp hmin, hmax.le⟩, M.round_eq (not_lt.mp hmin) hmax, fit_ok hfits]
      exact congrArg Except.ok (M.narrow_fits ⟨_, hfits⟩)

end

/-- The machine whose integers wrap. -/
def wrapping : Machine where
  narrow z := ⟨(z + 2 ^ 63) % 2 ^ 64 - 2 ^ 63, by constructor <;> omega⟩
  narrow_fits := by
    rintro ⟨z, hz⟩
    apply Subtype.ext
    change (z + 2 ^ 63) % 2 ^ 64 - 2 ^ 63 = z
    unfold Fits at hz
    omega

theorem wrapping_round_max : (wrapping.round (2 ^ 63 - 1)).1 = -2 ^ 63 := by
  have hfloor : (wrapping.floor (2 ^ 63 - 1)).1 = 2 ^ 63 - 1 := by
    rw [Machine.floor_eq (by norm_num) (by norm_num)]
    norm_num
  rw [Machine.round_nearer, hfloor]
  exact nearer_right (by norm_num) (by norm_num [wrapping])

theorem roundEven_max : roundEven (2 ^ 63 - 1 : ℚ) = 2 ^ 63 - 1 := by
  have h : roundEven ((9223372036854775807 : Int) : ℚ) = 9223372036854775807 := roundEven_intCast _
  norm_num at h ⊢
  exact h

theorem wrapping_misses (sign : Sign) (t : Int) :
    (wrapping.narrow (sign.apply t (-2 ^ 63))).1 ≠ sign.apply t (2 ^ 63 - 1) := by
  cases sign <;> simp only [wrapping, Sign.apply] <;> omega

theorem shift_iff {sign : Sign} {t : Ticks} {d : ℚ} :
    (∀ M : Machine, M.shift sign t d = exactShift sign t d) ↔ Shiftable sign t d := by
  refine ⟨fun h => ?_, fun h M => M.shift_exact h⟩
  have hwrap := h wrapping
  by_contra hnot
  rw [Shiftable, not_or] at hnot
  obtain ⟨hin, hnot⟩ := hnot
  rw [Machine.shift, if_neg fun h => hin h.symm, exactShift] at hwrap
  split at hwrap
  · rename_i hrange
    by_cases hfits : Fits (sign.apply t.1 (roundEven d))
    · have hd : d = 2 ^ 63 - 1 := le_antisymm hrange.2 (not_lt.mp fun hlt => hnot ⟨hlt, hfits⟩)
      subst hd
      rw [fit_ok hfits] at hwrap
      have hticks : (wrapping.narrow (sign.apply t.1 (wrapping.round (2 ^ 63 - 1)).1)).1 = _ :=
        congrArg Subtype.val (Except.ok.inj hwrap)
      rw [wrapping_round_max] at hticks
      exact wrapping_misses sign t.1 (hticks.trans (congrArg (sign.apply t.1) roundEven_max))
    · rw [fit_error hfits] at hwrap
      cases hwrap
  · cases hwrap

theorem difference_iff {t t2 : Ticks} :
    (∀ M : Machine, M.arithmetic.difference t t2 = exact.difference t t2) ↔ Fits (t.1 - t2.1) := by
  change (∀ M : Machine, Except.ok (M.narrow (t.1 - t2.1)) = fit (t.1 - t2.1)) ↔ _
  constructor
  · intro h
    by_contra hfits
    have hwrap := h wrapping
    rw [fit_error hfits] at hwrap
    cases hwrap
  · intro hfits M
    rw [fit_ok hfits]
    exact congrArg Except.ok (M.narrow_fits ⟨_, hfits⟩)

/-! The two arithmetics in the operations. -/

section
variable {ticksOf : Clock → ℚ → ℚ} {sign : Sign} {clock : Clock} {s : State} {a b : Arg} {t : Ticks}

theorem settle_injective {ok : Ticks → Outcome} (hinj : Function.Injective ok)
    (hok : ∀ t, (ok t).2.isOk = true) : Function.Injective (settle s ok) := by
  intro x y h
  cases x with
  | error e =>
      cases y with
      | error e' => exact congrArg Except.error (Except.error.inj (Prod.mk.inj h).2)
      | ok t =>
          have hsucceeds := hok t
          rw [← show settle s ok (.error e) = ok t from h] at hsucceeds
          cases hsucceeds
  | ok t =>
      cases y with
      | error e' =>
          have hsucceeds := hok t
          rw [show ok t = settle s ok (.error e') from h] at hsucceeds
          cases hsucceeds
      | ok t' => exact congrArg Except.ok (hinj h)

theorem make_injective : Function.Injective (make clock s) := by
  intro t t' h
  have hcons := List.append_cancel_left (Prod.mk.inj h).1
  exact (TimePoint.mk.inj (List.cons.inj hcons).1).2

theorem set_injective {ref : Nat} (href : ref < s.length) :
    Function.Injective fun t => ((s.set ref ⟨clock, t⟩, .ok .nothing) : Outcome) := by
  intro t t' h
  have hget := congrArg (·[ref]?) (Prod.mk.inj h).1
  simp only [List.getElem?_set_self href, Option.some.injEq, TimePoint.mk.injEq, true_and] at hget
  exact hget

theorem timePointArg_lt {ref : Nat} (h : timePointArg s clock a = some (ref, t)) : ref < s.length := by
  cases a with
  | userdata ref' =>
      rw [timePointArg] at h
      split at h
      · rename_i tp htp
        split at h
        · cases h
          exact (List.getElem?_eq_some_iff.mp htp).1
        · cases h
      · cases h
  | number n | string n | other => cases h

theorem shiftBy_iff {n : Number} :
    (∀ M : Machine, shiftBy M.arithmetic ticksOf sign clock t n = shiftBy exact ticksOf sign clock t n) ↔
      ∀ q, n = .finite q → Shiftable sign t (ticksOf clock q) := by
  cases n with
  | nan => exact iff_of_true (fun _ => rfl) nofun
  | infinite negative => exact iff_of_true (fun _ => rfl) nofun
  | finite q =>
      refine Iff.trans shift_iff ⟨?_, fun h => h q rfl⟩
      rintro h q' ⟨⟩
      exact h

/-- The first operand is moved by the second only to where both fit. -/
def ShiftInRange (ticksOf : Clock → ℚ → ℚ) (sign : Sign) (clock : Clock) (s : State) (a : Arg)
    (n : Option Number) : Prop :=
  ∀ ref t q, timePointArg s clock a = some (ref, t) → n = some (.finite q) → Shiftable sign t (ticksOf clock q)

theorem shiftInRange_some {ref : Nat} {n : Number} (ha : timePointArg s clock a = some (ref, t)) :
    ShiftInRange ticksOf sign clock s a (some n) ↔ ∀ q, n = .finite q → Shiftable sign t (ticksOf clock q) := by
  constructor
  · rintro h q rfl
    exact h ref t q ha rfl
  · intro h ref' t' q ha' hn
    rw [ha] at ha'
    cases ha'
    exact h q (Option.some.inj hn)

theorem shiftInRange_other (ha : timePointArg s clock a = none) (n : Option Number) :
    ShiftInRange ticksOf sign clock s a n := by
  intro ref t q h
  rw [ha] at h
  cases h

theorem shiftInRange_none : ShiftInRange ticksOf sign clock s a none := by
  intro ref t q _ h
  cases h

theorem shiftInPlace_iff :
    (∀ M : Machine, shiftInPlace M.arithmetic ticksOf sign clock s a b = shiftInPlace exact ticksOf sign clock s a b) ↔
      ShiftInRange ticksOf sign clock s a (checknumber b) := by
  simp only [shiftInPlace]
  cases ha : timePointArg s clock a with
  | none => exact iff_of_true (fun _ => rfl) (shiftInRange_other ha _)
  | some rt =>
      obtain ⟨ref, t⟩ := rt
      cases hb : checknumber b with
      | none => exact iff_of_true (fun _ => rfl) shiftInRange_none
      | some n =>
          have hinj : Function.Injective (settle s fun t' => (s.set ref ⟨clock, t'⟩, .ok .nothing)) :=
            settle_injective (set_injective (timePointArg_lt ha)) fun _ => rfl
          simp only [hinj.eq_iff]
          exact shiftBy_iff.trans (shiftInRange_some ha).symm

theorem shiftToNew_iff {ref : Nat} {n : Number} (ha : timePointArg s clock a = some (ref, t)) :
    (∀ M : Machine, shiftToNew M.arithmetic ticksOf sign clock s t n = shiftToNew exact ticksOf sign clock s t n) ↔
      ShiftInRange ticksOf sign clock s a (some n) := by
  have hinj : Function.Injective (settle s (make clock s)) := settle_injective make_injective fun _ => rfl
  simp only [shiftToNew, hinj.eq_iff]
  exact shiftBy_iff.trans (shiftInRange_some ha).symm

theorem mtAdd_iff :
    (∀ M : Machine, mtAdd M.arithmetic ticksOf clock s a b = mtAdd exact ticksOf clock s a b) ↔
      ShiftInRange ticksOf .plus clock s a (checknumber b) := by
  simp only [mtAdd]
  cases ha : timePointArg s clock a with
  | none => exact iff_of_true (fun _ => rfl) (shiftInRange_other ha _)
  | some rt =>
      cases hb : checknumber b with
      | none => exact iff_of_true (fun _ => rfl) shiftInRange_none
      | some n => exact shiftToNew_iff ha

def numberArg : Arg → Option Number
  | .number n => some n
  | _ => none

/-- The difference of two operands fits. -/
def DifferenceInRange (clock : Clock) (s : State) (a b : Arg) : Prop :=
  ∀ ref t ref2 t2, timePointArg s clock a = some (ref, t) → timePointArg s clock b = some (ref2, t2) → Fits (t.1 - t2.1)

theorem differenceInRange_other (hb : timePointArg s clock b = none) : DifferenceInRange clock s a b := by
  intro ref t ref2 t2 _ h
  rw [hb] at h
  cases h

theorem mtSub_iff :
    (∀ M : Machine, mtSub M.arithmetic ticksOf clock s a b = mtSub exact ticksOf clock s a b) ↔
      ShiftInRange ticksOf .minus clock s a (numberArg b) ∧ DifferenceInRange clock s a b := by
  simp only [mtSub]
  cases ha : timePointArg s clock a with
  | none =>
      refine iff_of_true (fun _ => rfl) ⟨shiftInRange_other ha _, ?_⟩
      intro ref t ref2 t2 h
      rw [ha] at h
      cases h
  | some rt =>
      obtain ⟨ref, t⟩ := rt
      cases b with
      | number n => exact (shiftToNew_iff ha).trans (iff_self_and.mpr fun _ => differenceInRange_other rfl)
      | string n => exact iff_of_true (fun _ => rfl) ⟨shiftInRange_none, differenceInRange_other rfl⟩
      | other => exact iff_of_true (fun _ => rfl) ⟨shiftInRange_none, differenceInRange_other rfl⟩
      | userdata ref2 =>
          cases hb : timePointArg s clock (.userdata ref2) with
          | none => exact iff_of_true (fun _ => rfl) ⟨shiftInRange_none, differenceInRange_other hb⟩
          | some rt2 =>
              obtain ⟨ref2, t2⟩ := rt2
              have hinj : Function.Injective fun d => ((s, .ok (.difference d)) : Outcome) := by
                intro d d' h
                exact Ret.difference.inj (Except.ok.inj (Prod.mk.inj h).2)
              simp only [(@settle_injective s _ hinj fun _ => rfl).eq_iff]
              refine difference_iff.trans ⟨fun h => ⟨shiftInRange_none, ?_⟩, fun h => h.2 _ _ _ _ ha hb⟩
              intro _ _ _ _ ha' hb'
              rw [ha] at ha'
              rw [hb] at hb'
              cases ha'
              cases hb'
              exact h

/-- A step after which everything fits, or whose operand is refused. -/
def InRange (ticksOf : Clock → ℚ → ℚ) (s : State) : Action → Prop
  | .add clock a b => ShiftInRange ticksOf .plus clock s a (checknumber b)
  | .sub clock a b => ShiftInRange ticksOf .minus clock s a (checknumber b)
  | .mtAdd clock a b => ShiftInRange ticksOf .plus clock s a (checknumber b)
  | .mtSub clock a b => ShiftInRange ticksOf .minus clock s a (numberArg b) ∧ DifferenceInRange clock s a b
  | _ => True

theorem step_iff (action : Action) : (∀ M : Machine, step M.arithmetic ticksOf s action = step exact ticksOf s action) ↔
    InRange ticksOf s action := by
  cases action with
  | epoch clock => exact iff_of_true (fun _ => rfl) trivial
  | now clock reading => exact iff_of_true (fun _ => rfl) trivial
  | add clock a b => cases clock <;> exact shiftInPlace_iff
  | sub clock a b => cases clock <;> exact shiftInPlace_iff
  | mtAdd clock a b => cases clock <;> exact mtAdd_iff
  | mtSub clock a b => cases clock <;> exact mtSub_iff
  | lt clock a b => cases clock <;> exact iff_of_true (fun _ => rfl) trivial
  | le clock a b => cases clock <;> exact iff_of_true (fun _ => rfl) trivial
  | eq ref1 ref2 => exact iff_of_true (fun _ => rfl) trivial

end

/-- Nanoseconds. -/
def nanoseconds (_ : Clock) (q : ℚ) : ℚ := q * 10 ^ 9

def twoAdds : List Action :=
  [.epoch .steady, .add .steady (.userdata 0) (.number (.finite 9000000000)),
    .add .steady (.userdata 0) (.number (.finite 9000000000))]

end Emilua.Time
