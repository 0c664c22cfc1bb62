import Mathlib.Data.List.Basic
import Mathlib.Logic.Relation

/-!
Things that can be had once all they depend on can: what there already is, and
what is whole and depends only on things that can be had. A thing that depends
on itself, with nothing on the way that is there already, cannot.
-/
namespace Dependencies

variable {α : Type}

inductive Loadable (deps : α → List α) (whole : α → Prop) (cached : α → Prop) : α → Prop where
  | cached {x : α} (h : cached x) : Loadable deps whole cached x
  | load {x : α} (h : whole x) (hdeps : ∀ d ∈ deps x, Loadable deps whole cached d) :
      Loadable deps whole cached x

/-- A dependency of something that has to be had first. -/
def Needs (deps : α → List α) (cached : α → Prop) (x y : α) : Prop := ¬ cached x ∧ y ∈ deps x

variable {deps : α → List α} {whole : α → Prop} {cached cached' : α → Prop} {x y : α}

/-- What can be had may as well be there already. -/
theorem Loadable.cut (h : Loadable deps whole cached' x)
    (hcached : ∀ y, cached' y → Loadable deps whole cached y) : Loadable deps whole cached x := by
  induction h with
  | cached h => exact hcached _ h
  | load h _ ih => exact .load h ih

theorem Loadable.mono (h : Loadable deps whole cached x) (hsub : ∀ y, cached y → cached' y) :
    Loadable deps whole cached' x :=
  h.cut fun y hy => .cached (hsub y hy)

theorem Loadable.of_needs (h : Loadable deps whole cached x) (hneeds : Needs deps cached x y) :
    Loadable deps whole cached y := by
  cases h with
  | cached h => exact absurd h hneeds.1
  | load _ hdeps => exact hdeps y hneeds.2

theorem Needs.mono (h : Needs deps cached' x y) (hsub : ∀ y, cached y → cached' y) :
    Needs deps cached x y :=
  ⟨fun hx => h.1 (hsub x hx), h.2⟩

/-- Nothing that can be had needs itself. -/
theorem Loadable.not_cyclic (h : Loadable deps whole cached x) :
    ¬ Relation.TransGen (Needs deps cached) x x := by
  induction h with
  | cached h =>
      intro hcycle
      obtain ⟨y, hneeds, -⟩ := Relation.TransGen.head'_iff.mp hcycle
      exact hneeds.1 h
  | @load x _ _ ih =>
      intro hcycle
      obtain ⟨y, hneeds, hback⟩ := Relation.TransGen.head'_iff.mp hcycle
      exact ih y hneeds.2 (Relation.TransGen.tail' hback hneeds)

end Dependencies
