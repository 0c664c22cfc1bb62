import Mathlib.Data.List.Basic
import Mathlib.Data.List.Infix

/-!
Paths in their lexical form, as `std::filesystem::path` takes them apart on
POSIX: whether a path starts at the root directory, and its components. Only
the last component may be empty, which is how a trailing separator shows. Two
paths are equal when their components are; no file system is consulted.
-/

structure LexicalPath (α : Type) where
  absolute : Bool
  comps : List (List α)
  named : ∀ c ∈ comps.dropLast, c ≠ [] := by decide
deriving DecidableEq

namespace LexicalPath
variable {α : Type}

@[ext] theorem ext' {p q : LexicalPath α} (ha : p.absolute = q.absolute)
    (hc : p.comps = q.comps) : p = q := by
  cases p
  cases q
  cases ha
  cases hc
  rfl

/-- Spelled without a trailing separator. -/
def Plain (p : LexicalPath α) : Prop := p.comps.getLast? ≠ some []

instance [DecidableEq α] (p : LexicalPath α) : Decidable p.Plain :=
  inferInstanceAs (Decidable (_ ≠ _))

/-- The components without the empty one that stands for a trailing separator. -/
def stem (p : LexicalPath α) : List (List α) :=
  if p.comps.getLast?.any List.isEmpty then p.comps.dropLast else p.comps

theorem Plain.stem_eq {p : LexicalPath α} (h : p.Plain) : p.stem = p.comps := by
  apply if_neg
  cases hlast : p.comps.getLast? with
  | none => simp
  | some c =>
      intro hempty
      have hc : c = [] := List.isEmpty_iff.mp hempty
      exact h (by rw [hlast, hc])

theorem stem_named (p : LexicalPath α) : ∀ c ∈ p.stem, c ≠ [] := by
  intro c hc
  unfold stem at hc
  split at hc
  · exact p.named c hc
  · rename_i hlast
    rcases List.eq_nil_or_concat p.comps with hnil | ⟨init, last, hcomps⟩
    · rw [hnil] at hc
      cases hc
    · have hnamed := p.named
      rw [hcomps, List.concat_eq_append] at hc hlast hnamed
      rcases List.mem_append.mp hc with hinit | hmem
      · exact hnamed c (by simpa using hinit)
      · rw [List.mem_singleton] at hmem
        simpa [hmem] using hlast

/-- A path with no relative part is its own parent. -/
def parentPath (p : LexicalPath α) : LexicalPath α where
  absolute := p.absolute
  comps := p.comps.dropLast
  named c hc := p.named c (List.mem_of_mem_dropLast hc)

def isEmpty (p : LexicalPath α) : Bool := !p.absolute && p.comps.isEmpty

def hasParentPath (p : LexicalPath α) : Bool := !p.parentPath.isEmpty

/-- `p / name`, for the name of one component. -/
def child (p : LexicalPath α) (name : List α) : LexicalPath α where
  absolute := p.absolute
  comps := p.stem ++ [name]
  named c hc := p.stem_named c (by simpa using hc)

/-- `cwd / p`, unless `p` is absolute already. -/
def toAbsolute (cwd p : LexicalPath α) : LexicalPath α :=
  if p.absolute then p
  else
    { absolute := cwd.absolute
      comps := cwd.stem ++ p.comps
      named := by
        intro c hc
        by_cases hp : p.comps = []
        · rw [hp, List.append_nil] at hc
          exact cwd.stem_named c (List.mem_of_mem_dropLast hc)
        · rw [List.dropLast_append_of_ne_nil hp] at hc
          rcases List.mem_append.mp hc with h | h
          · exact cwd.stem_named c h
          · exact p.named c h }

/-- `p` lies under the directory `root`. -/
def Under (root p : LexicalPath α) : Prop := p.absolute = root.absolute ∧ root.stem <+: p.comps

instance [DecidableEq α] (root p : LexicalPath α) : Decidable (Under root p) :=
  inferInstanceAs (Decidable (_ ∧ _))

@[simp] theorem parentPath_absolute (p : LexicalPath α) : p.parentPath.absolute = p.absolute := rfl

@[simp] theorem parentPath_comps (p : LexicalPath α) : p.parentPath.comps = p.comps.dropLast := rfl

@[simp] theorem child_absolute (p : LexicalPath α) (name : List α) :
    (p.child name).absolute = p.absolute := rfl

@[simp] theorem child_comps (p : LexicalPath α) (name : List α) :
    (p.child name).comps = p.stem ++ [name] := rfl

/-- A parent is spelled without a trailing separator. -/
theorem parentPath_plain (p : LexicalPath α) : p.parentPath.Plain := fun h =>
  p.named [] (List.mem_of_getLast? h) rfl

theorem child_plain (p : LexicalPath α) {name : List α} (h : name ≠ []) : (p.child name).Plain := by
  simpa [Plain] using h

theorem stem_child (p : LexicalPath α) {name : List α} (h : name ≠ []) :
    (p.child name).stem = p.stem ++ [name] :=
  (child_plain p h).stem_eq

theorem Plain.parentPath_child {p : LexicalPath α} (h : p.Plain) (name : List α) :
    (p.child name).parentPath = p := by
  refine ext' rfl ?_
  rw [parentPath_comps, child_comps, List.dropLast_concat, h.stem_eq]

/-- Walking down through named directories. -/
theorem stem_foldl_child (p : LexicalPath α) {names : List (List α)} (h : ∀ n ∈ names, n ≠ []) :
    (names.foldl child p).stem = p.stem ++ names := by
  induction names generalizing p with
  | nil => simp
  | cons n names ih =>
      rw [List.foldl_cons, ih _ fun m hm => h m (List.mem_cons_of_mem _ hm),
        stem_child p (h n List.mem_cons_self), List.append_assoc, List.singleton_append]

@[simp] theorem foldl_child_absolute (p : LexicalPath α) (names : List (List α)) :
    (names.foldl child p).absolute = p.absolute := by
  induction names generalizing p with
  | nil => rfl
  | cons n names ih => rw [List.foldl_cons, ih, child_absolute]

theorem Plain.under_self {p : LexicalPath α} (h : p.Plain) : Under p p :=
  ⟨rfl, by rw [h.stem_eq]⟩

/-- What lies under a directory reached from `root` lies under `root`. -/
theorem Under.child {root p : LexicalPath α} (h : Under root p) (name : List α) (hp : p.Plain) :
    Under root (p.child name) := by
  refine ⟨h.1, ?_⟩
  rw [child_comps, hp.stem_eq]
  exact h.2.trans (List.prefix_append _ _)

/-- Climbing from below a directory one reaches it before leaving it. -/
theorem Under.parentPath {root p : LexicalPath α} (hroot : root.Plain) (h : Under root p)
    (hne : p ≠ root) : Under root p.parentPath := by
  refine ⟨h.1, ?_⟩
  obtain ⟨more, hmore⟩ := h.2
  rw [hroot.stem_eq] at hmore ⊢
  rcases List.eq_nil_or_concat more with rfl | ⟨init, last, rfl⟩
  · rw [List.append_nil] at hmore
    exact absurd (ext' h.1 hmore.symm) hne
  · refine ⟨init, ?_⟩
    rw [parentPath_comps, ← hmore, List.concat_eq_append, ← List.append_assoc,
      List.dropLast_concat]

end LexicalPath
