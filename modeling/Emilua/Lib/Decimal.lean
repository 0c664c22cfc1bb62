import Mathlib.Tactic
import Mathlib.Data.Nat.Digits.Lemmas

/-!
Decimal numerals in ASCII: what `to_chars` writes of a number and what `from_chars`
makes of the digits that it has read. A numeral without leading zeros is the one
that is written of its value.
-/
namespace Decimal

def digit (d : Nat) : UInt8 := UInt8.ofNat (48 + d)

def isDigit (b : UInt8) : Bool := 48 ≤ b && b ≤ 57

def digitValue (b : UInt8) : Nat := b.toNat - 48

def numeral (n : Nat) : List UInt8 := if n = 0 then [48] else (Nat.digits 10 n).reverse.map digit

def value (ds : List UInt8) : Nat := ds.foldl (fun v b => 10 * v + digitValue b) 0

variable {b : UInt8} {d n : Nat} {ds : List UInt8}

theorem isDigit_iff : isDigit b = true ↔ 48 ≤ b.toNat ∧ b.toNat ≤ 57 := by
  rw [isDigit, Bool.and_eq_true, decide_eq_true_iff, decide_eq_true_iff]
  rfl

theorem toNat_digit (h : d < 10) : (digit d).toNat = 48 + d := by
  rw [digit, UInt8.toNat_ofNat']
  exact Nat.mod_eq_of_lt (by omega)

theorem digitValue_digit (h : d < 10) : digitValue (digit d) = d := by
  rw [digitValue, toNat_digit h, Nat.add_sub_cancel_left]

theorem isDigit_digit (h : d < 10) : isDigit (digit d) = true := by
  rw [isDigit_iff, toNat_digit h]
  omega

theorem digit_digitValue (h : isDigit b = true) : digit (digitValue b) = b := by
  rw [isDigit_iff] at h
  rw [digit, digitValue, Nat.add_sub_cancel' h.1]
  exact UInt8.ofNat_toNat

theorem value_eq (ds : List UInt8) : value ds = Nat.ofDigits 10 (ds.reverse.map digitValue) := by
  induction ds using List.reverseRecOn with
  | nil => rfl
  | append_singleton ds b ih =>
      rw [value, List.foldl_append, List.foldl_cons, List.foldl_nil, ← value, ih, List.reverse_append, List.reverse_singleton,
        List.singleton_append, List.map_cons, Nat.ofDigits_cons, Nat.add_comm]

theorem numeral_digits (n : Nat) : ∀ b ∈ numeral n, isDigit b = true := by
  intro b hb
  rw [numeral] at hb
  split at hb
  · rw [List.mem_singleton.mp hb]
    rfl
  · obtain ⟨d, hd, rfl⟩ := List.mem_map.mp hb
    exact isDigit_digit (Nat.digits_lt_base (by decide) (List.mem_reverse.mp hd))

theorem numeral_ne_nil (n : Nat) : numeral n ≠ [] := by
  rw [numeral]
  split
  · exact List.cons_ne_nil _ _
  · rename_i hn
    rw [Ne, List.map_eq_nil_iff, List.reverse_eq_nil_iff, Nat.digits_eq_nil_iff_eq_zero]
    exact hn

theorem value_numeral (n : Nat) : value (numeral n) = n := by
  rw [numeral]
  split
  · rename_i hn
    rw [hn]
    rfl
  · have hsame : ((Nat.digits 10 n).map digit).map digitValue = Nat.digits 10 n := by
      rw [List.map_map]
      refine (List.map_congr_left fun d hd => ?_).trans (List.map_id _)
      exact digitValue_digit (Nat.digits_lt_base (by decide) hd)
    rw [value_eq, ← List.map_reverse, List.reverse_reverse, hsame, Nat.ofDigits_digits]

/-- A numeral is written of its value if it has no leading zero. -/
theorem numeral_value (hne : ds ≠ []) (hdigits : ∀ b ∈ ds, isDigit b = true) (hlead : ds.head? = some 48 → ds.length = 1) :
    numeral (value ds) = ds := by
  obtain ⟨b, rest, rfl⟩ := List.exists_cons_of_ne_nil hne
  have hback : ((b :: rest).map digitValue).map digit = b :: rest := by
    rw [List.map_map]
    exact (List.map_congr_left fun x hx => digit_digitValue (hdigits x hx)).trans (List.map_id _)
  by_cases hb : b = 48
  · subst hb
    obtain rfl := List.length_eq_zero_iff.mp (Nat.succ.inj (hlead rfl))
    rfl
  · -- The most significant digit is not zero, so the digits are those of the value.
    have hdigit := isDigit_iff.mp (hdigits b List.mem_cons_self)
    have hpos : digitValue b ≠ 0 := by
      intro hzero
      have hnat : b.toNat = 48 := by
        rw [digitValue] at hzero
        omega
      exact hb (UInt8.toNat_inj.mp hnat)
    have hlt : ∀ d ∈ (b :: rest).reverse.map digitValue, d < 10 := by
      intro d hd
      obtain ⟨x, hx, rfl⟩ := List.mem_map.mp hd
      have hxd := isDigit_iff.mp (hdigits x (List.mem_reverse.mp hx))
      rw [digitValue]
      omega
    have hof := Nat.digits_ofDigits 10 (by decide) ((b :: rest).reverse.map digitValue) hlt fun h => by
      simp only [List.reverse_cons, List.map_append, List.map_cons, List.map_nil, List.getLast_append_singleton]
      exact hpos
    rw [← value_eq] at hof
    have hvalue : value (b :: rest) ≠ 0 := by
      intro hzero
      rw [hzero, Nat.digits_zero] at hof
      simp at hof
    rw [numeral, if_neg hvalue, hof, ← List.map_reverse, List.reverse_reverse, hback]

theorem numeral_lead (h : (numeral n).head? = some 48) : (numeral n).length = 1 := by
  rw [numeral] at h ⊢
  split
  · rfl
  · rename_i hn
    rw [if_neg hn, List.head?_map, List.head?_reverse, List.getLast?_eq_some_getLast (Nat.digits_ne_nil_iff_ne_zero.mpr hn)] at h
    have hlast := Nat.getLast_digit_ne_zero 10 hn
    have hlt := Nat.digits_lt_base (m := n) (b := 10) (by decide) (List.getLast_mem (Nat.digits_ne_nil_iff_ne_zero.mpr hn))
    have hnat := congrArg UInt8.toNat (Option.some.inj h)
    rw [toNat_digit hlt] at hnat
    exact absurd (Nat.add_left_cancel (hnat.trans (Nat.add_zero 48).symm)) hlast

end Decimal
