import Emilua.Lib.FdTable

/-!
Files passed from one process to another: they are installed one after the other,
each at the lowest number that is not in use.
-/
namespace FdTable

variable {F : Type} {t t' : FdTable F} {n m : Nat} {e : FdEntry F} {f : F} {fs : List F} {ns : List Nat}

def add (t : FdTable F) (e : FdEntry F) : FdTable F × Nat := (t.put t.lowest e, t.lowest)

/-- `recvmsg` with `SCM_RIGHTS`. -/
def install (t : FdTable F) : List F → FdTable F × List Nat
  | [] => (t, [])
  | f :: fs =>
      let (t, n) := t.add ⟨f, false⟩
      let (t, ns) := install t fs
      (t, n :: ns)

def closeAll (t : FdTable F) (ns : List Nat) : FdTable F := ns.foldl close t

theorem file_ne_none : t.file n ≠ none ↔ t.entry n ≠ none := not_congr file_eq_none_iff

@[simp] theorem file_close : (t.close n).file m = if m = n then none else t.file m := by
  rw [file, entry_close]
  split <;> rfl

@[simp] theorem file_closeFrom {first : Nat} : (t.closeFrom first).file m = if first ≤ m then none else t.file m := by
  rw [file, entry_closeFrom]
  split <;> rfl

theorem entry_closeAll : (t.closeAll ns).entry m = if m ∈ ns then none else t.entry m := by
  induction ns generalizing t with
  | nil => rfl
  | cons n ns ih =>
      change ((t.close n).closeAll ns).entry m = _
      rw [ih, entry_close]
      by_cases hm : m ∈ ns
      · rw [if_pos hm, if_pos (List.mem_cons_of_mem n hm)]
      · by_cases hn : m = n
        · rw [if_neg hm, if_pos hn, if_pos (List.mem_cons.mpr (.inl hn))]
        · rw [if_neg hm, if_neg hn, if_neg (List.not_mem_cons_of_ne_of_not_mem hn hm)]

theorem file_closeAll : (t.closeAll ns).file m = if m ∈ ns then none else t.file m := by
  rw [file, entry_closeAll]
  split <;> rfl

/-- What is added is new, and nothing else changes. -/
theorem add_spec (t : FdTable F) (e : FdEntry F) : t.entry (t.add e).2 = none ∧ (t.add e).1.entry (t.add e).2 = some e ∧
    ∀ m, m ≠ (t.add e).2 → (t.add e).1.entry m = t.entry m := by
  refine ⟨t.entry_lowest, ?_, ?_⟩
  · rw [add, entry_put, if_pos rfl]
  · intro m hm
    exact entry_put.trans (if_neg hm)

theorem install_length : (t.install fs).2.length = fs.length := by
  induction fs generalizing t with
  | nil => rfl
  | cons f fs ih => exact congrArg Nat.succ ih

theorem install_closed (h : n ∈ (t.install fs).2) : t.entry n = none := by
  induction fs generalizing t with
  | nil => cases h
  | cons f fs ih =>
      obtain ⟨hclosed, -, hother⟩ := t.add_spec ⟨f, false⟩
      rcases List.mem_cons.mp h with rfl | h
      · exact hclosed
      · have hn := ih h
        by_cases heq : n = (t.add ⟨f, false⟩).2
        · rw [heq]
          exact hclosed
        · rw [← hother n heq]
          exact hn

theorem install_other (h : m ∉ (t.install fs).2) : (t.install fs).1.entry m = t.entry m := by
  induction fs generalizing t with
  | nil => rfl
  | cons f fs ih =>
      obtain ⟨hne, hm⟩ := List.ne_and_not_mem_of_not_mem_cons h
      exact (ih hm).trans ((t.add_spec ⟨f, false⟩).2.2 m hne)

theorem install_open (h : t.entry m ≠ none) : (t.install fs).1.entry m = t.entry m :=
  install_other fun hmem => h (install_closed hmem)

theorem install_files : (t.install fs).2.map (t.install fs).1.file = fs.map some := by
  induction fs generalizing t with
  | nil => rfl
  | cons f fs ih =>
      rw [List.map_cons, ← ih (t := (t.add ⟨f, false⟩).1)]
      refine congrArg₂ List.cons ?_ rfl
      have hadded : (t.add ⟨f, false⟩).1.entry (t.add ⟨f, false⟩).2 = some ⟨f, false⟩ := (t.add_spec ⟨f, false⟩).2.1
      have hopen : (t.add ⟨f, false⟩).1.entry (t.add ⟨f, false⟩).2 ≠ none := by
        rw [hadded]
        exact Option.some_ne_none _
      have hkept : ((t.add ⟨f, false⟩).1.install fs).1.entry (t.add ⟨f, false⟩).2 = _ := install_open hopen
      exact (file_congr hkept).trans (by rw [file, hadded]; rfl)

theorem install_closeAll : ((t.install fs).1.closeAll (t.install fs).2).entry = t.entry := by
  funext m
  rw [entry_closeAll]
  split
  · rename_i hm
    exact (install_closed hm).symm
  · rename_i hm
    exact install_other hm

end FdTable
