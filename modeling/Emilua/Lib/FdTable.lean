import Mathlib.Order.Basic
import Mathlib.Tactic

/-!
The table of a process's file descriptors. A number refers to an open file of
type `F` and has a flag that says whether `exec` closes it.
-/

structure FdEntry (F : Type) where
  file : F
  cloexec : Bool
deriving DecidableEq, Repr

/-- All numbers from `top` on are closed. -/
structure FdTable (F : Type) where
  entry : Nat → Option (FdEntry F)
  top : Nat
  closedAbove : ∀ n, top ≤ n → entry n = none

namespace FdTable

variable {F : Type}

def file (t : FdTable F) (n : Nat) : Option F := (t.entry n).map FdEntry.file

/-- Make a number refer to a file. -/
def put (t : FdTable F) (n : Nat) (e : FdEntry F) : FdTable F where
  entry m := if m = n then some e else t.entry m
  top := max t.top (n + 1)
  closedAbove m hm := by
    rw [if_neg (by omega)]
    exact t.closedAbove m (by omega)

/-- Close the numbers that satisfy a predicate. -/
def drop (t : FdTable F) (p : Nat → Bool) : FdTable F where
  entry m := if p m then none else t.entry m
  top := t.top
  closedAbove m hm := by
    rw [t.closedAbove m hm, ite_self]

def close (t : FdTable F) (n : Nat) : FdTable F := t.drop (· == n)

/-- `close_range` up to the last number. -/
def closeFrom (t : FdTable F) (first : Nat) : FdTable F := t.drop (first ≤ ·)

/-- The copy has no close-on-exec flag; a number is not copied to itself. -/
def dup2 (t : FdTable F) (src dst : Nat) : Option (FdTable F) :=
  (t.entry src).map fun e => if src = dst then t else t.put dst ⟨e.file, false⟩

def setCloexec (t : FdTable F) (n : Nat) : Option (FdTable F) :=
  (t.entry n).map fun e => t.put n ⟨e.file, true⟩

theorem exists_closed (t : FdTable F) : ∃ n, (t.entry n).isNone = true :=
  ⟨t.top, by rw [t.closedAbove t.top (Nat.le_refl _)]; rfl⟩

/-- The lowest number that is not in use. -/
def lowest (t : FdTable F) : Nat := Nat.find t.exists_closed

/-- A pipe whose ends are `r` and `w`, and their numbers. -/
def pipe (t : FdTable F) (r w : F) : FdTable F × Nat × Nat :=
  let t' := t.put t.lowest ⟨r, false⟩
  (t'.put t'.lowest ⟨w, false⟩, t.lowest, t'.lowest)

/-- The table after a successful `exec`. -/
def exec (t : FdTable F) : FdTable F :=
  t.drop fun n => (t.entry n).any FdEntry.cloexec

variable {t : FdTable F} {n m src first : Nat} {f r w : F} {e : FdEntry F}

@[simp] theorem entry_put : (t.put n e).entry m = if m = n then some e else t.entry m := rfl

@[simp] theorem file_put : (t.put n e).file m = if m = n then some e.file else t.file m := by
  unfold file
  rw [entry_put]
  split <;> rfl

@[simp] theorem entry_close : (t.close n).entry m = if m = n then none else t.entry m := by
  simp only [close, drop, beq_iff_eq]

@[simp] theorem entry_closeFrom : (t.closeFrom first).entry m = if first ≤ m then none else t.entry m := by
  simp only [closeFrom, drop, decide_eq_true_eq]

theorem file_eq_none_iff : t.file n = none ↔ t.entry n = none := by
  unfold file
  rw [Option.map_eq_none_iff]

theorem file_congr {t' : FdTable F} (h : t'.entry n = t.entry n) : t'.file n = t.file n := by
  unfold file
  rw [h]

theorem entry_of_file (h : t.file n = some f) : ∃ flag, t.entry n = some ⟨f, flag⟩ := by
  obtain ⟨⟨f', flag⟩, he, rfl⟩ := Option.map_eq_some_iff.mp h
  exact ⟨flag, he⟩

/-- An open number is copied; no other number changes. -/
theorem dup2_of_open (dst : Nat) (h : t.file src = some f) : ∃ t', t.dup2 src dst = some t' ∧
    t'.file dst = some f ∧ ∀ m, m ≠ dst → t'.entry m = t.entry m := by
  obtain ⟨flag, he⟩ := entry_of_file h
  unfold dup2
  rw [he]
  by_cases heq : src = dst
  · refine ⟨t, ?_, heq ▸ h, fun _ _ => rfl⟩
    rw [Option.map_some, if_pos heq]
  · refine ⟨t.put dst ⟨f, false⟩, ?_, ?_, ?_⟩
    · rw [Option.map_some, if_neg heq]
    · rw [file_put, if_pos rfl]
    · intro m hm
      rw [entry_put, if_neg hm]

theorem setCloexec_of_open (h : t.file n = some f) : ∃ t', t.setCloexec n = some t' ∧
    t'.entry n = some ⟨f, true⟩ ∧ ∀ m, m ≠ n → t'.entry m = t.entry m := by
  obtain ⟨flag, he⟩ := entry_of_file h
  refine ⟨t.put n ⟨f, true⟩, ?_, ?_, ?_⟩
  · unfold setCloexec
    rw [he, Option.map_some]
  · rw [entry_put, if_pos rfl]
  · intro m hm
    rw [entry_put, if_neg hm]

theorem entry_lowest (t : FdTable F) : t.entry t.lowest = none :=
  Option.isNone_iff_eq_none.mp (Nat.find_spec t.exists_closed)

theorem ne_lowest (h : t.entry n ≠ none) : n ≠ t.lowest := by
  rintro rfl
  exact h t.entry_lowest

/-- The ends of a new pipe are at numbers that were closed. -/
theorem pipe_spec (t : FdTable F) (r w : F) :
    (t.pipe r w).1.file (t.pipe r w).2.1 = some r ∧ (t.pipe r w).1.file (t.pipe r w).2.2 = some w ∧
      (∀ m, t.entry m ≠ none → (t.pipe r w).1.entry m = t.entry m) := by
  have hfirst : (t.put t.lowest ⟨r, false⟩).entry t.lowest ≠ none := by
    rw [entry_put, if_pos rfl]
    exact Option.some_ne_none _
  have hne := ne_lowest hfirst
  refine ⟨?_, ?_, ?_⟩
  · simp only [pipe]
    rw [file_put, if_neg hne, file_put, if_pos rfl]
  · simp only [pipe]
    rw [file_put, if_pos rfl]
  · intro m hm
    have hm' : (t.put t.lowest ⟨r, false⟩).entry m = t.entry m := by
      rw [entry_put, if_neg (ne_lowest hm)]
    simp only [pipe]
    rw [entry_put, if_neg (ne_lowest (hm' ▸ hm)), hm']

/-- `exec` closes what is marked. -/
theorem entry_exec_of_cloexec (h : t.entry n = some ⟨f, true⟩) : t.exec.entry n = none := by
  simp only [exec, drop, h, Option.any_some, if_true]

theorem entry_exec_of_closed (h : t.entry n = none) : t.exec.entry n = none := by
  simp only [exec, drop, h, ite_self]

end FdTable
