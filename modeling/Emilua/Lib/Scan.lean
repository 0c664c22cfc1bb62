import Mathlib.Tactic

/-!
Scanning a text for the first of some words, and for the bracket that closes
what is open.
-/
namespace Scan

variable {α κ : Type} [DecidableEq α]

/-- The leftmost place where one of the words stands: what is before it, which
word, and what is behind it. No word is empty. -/
def firstMatch (word : κ → List α) (keys : List κ) : List α → Option (List α × κ × List α)
  | [] => none
  | c :: s =>
      match keys.find? fun k => (word k).isPrefixOf (c :: s) with
      | some k => some ([], k, (c :: s).drop (word k).length)
      | none => (firstMatch word keys s).map fun found => (c :: found.1, found.2)

theorem firstMatch_some {word : κ → List α} {keys : List κ} {s before after : List α} {k : κ}
    (h : firstMatch word keys s = some (before, k, after)) : s = before ++ (word k ++ after) ∧ k ∈ keys := by
  induction s generalizing before with
  | nil => cases h
  | cons c s ih =>
      rw [firstMatch] at h
      split at h
      · rename_i k' hfind
        cases h
        have hprefix := List.find?_some hfind
        obtain ⟨rest, hrest⟩ := List.isPrefixOf_iff_prefix.mp hprefix
        refine ⟨?_, List.mem_of_find?_eq_some hfind⟩
        rw [← hrest, List.drop_left, List.nil_append]
      · obtain ⟨⟨before', k', after'⟩, hfound, heq⟩ := Option.map_eq_some_iff.mp h
        cases heq
        obtain ⟨hs, hk⟩ := ih hfound
        exact ⟨congrArg (c :: ·) hs, hk⟩

/-- How many brackets are open behind `s`, if none is closed that was not open. -/
def depth (l r : α) : Nat → List α → Option Nat
  | n, [] => some n
  | n, c :: s =>
      if c = l then depth l r (n + 1) s
      else if c = r then (if n = 0 then none else depth l r (n - 1) s)
      else depth l r n s

def Balanced (l r : α) (s : List α) : Prop := depth l r 0 s = some 0

/-- What stands before and behind the bracket that closes the outermost of
`n + 1` open ones. -/
def close (l r : α) : Nat → List α → Option (List α × List α)
  | _, [] => none
  | n, c :: s =>
      if c = l then (close l r (n + 1) s).map fun found => (c :: found.1, found.2)
      else if c = r then
        if n = 0 then some ([], s) else (close l r (n - 1) s).map fun found => (c :: found.1, found.2)
      else (close l r n s).map fun found => (c :: found.1, found.2)

/-- Where the first character takes the depth to `m`. -/
theorem depth_cons_iff {l r c : α} {n m : Nat} {s arg rest : List α}
    (hdepth : ∀ arg, depth l r n (c :: arg) = depth l r m arg) (hopen : c = r → n ≠ 0) :
    (∃ arg', arg = c :: arg' ∧ s = arg' ++ r :: rest ∧ depth l r m arg' = some 0) ↔
      c :: s = arg ++ r :: rest ∧ depth l r n arg = some 0 := by
  constructor
  · rintro ⟨arg', rfl, rfl, harg⟩
    exact ⟨rfl, (hdepth arg').trans harg⟩
  · rintro ⟨hs, harg⟩
    cases arg with
    | nil => exact absurd (Option.some.inj harg) (hopen (List.cons.inj hs).1)
    | cons c' arg' =>
        obtain ⟨hc, htail⟩ := List.cons.inj hs
        subst hc
        exact ⟨arg', rfl, htail, (hdepth arg').symm.trans harg⟩

theorem close_some_iff {l r : α} (hlr : l ≠ r) {n : Nat} {s arg rest : List α} :
    close l r n s = some (arg, rest) ↔ s = arg ++ r :: rest ∧ depth l r n arg = some 0 := by
  induction s generalizing n arg with
  | nil => exact iff_of_false nofun fun h => by simp at h
  | cons c s ih =>
      have hcons (m : Nat) : (close l r m s).map (fun found => (c :: found.1, found.2)) = some (arg, rest) ↔
          ∃ arg', arg = c :: arg' ∧ s = arg' ++ r :: rest ∧ depth l r m arg' = some 0 := by
        rw [Option.map_eq_some_iff]
        constructor
        · rintro ⟨⟨arg', rest'⟩, hclose, heq⟩
          cases heq
          exact ⟨arg', rfl, ih.mp hclose⟩
        · rintro ⟨arg', rfl, h⟩
          exact ⟨(arg', rest), ih.mpr h, rfl⟩
      rw [close]
      by_cases hl : c = l
      · rw [if_pos hl, hcons]
        exact depth_cons_iff (fun arg => by rw [depth, if_pos hl]) fun hr => absurd (hl.symm.trans hr) hlr
      rw [if_neg hl]
      by_cases hr : c = r
      · rw [if_pos hr]
        by_cases hn : n = 0
        · subst hn hr
          rw [if_pos rfl]
          constructor
          · rintro ⟨⟩
            exact ⟨rfl, rfl⟩
          · rintro ⟨hs, harg⟩
            cases arg with
            | nil => rw [(List.cons.inj hs).2]
            | cons c' arg' =>
                rw [← (List.cons.inj hs).1, depth, if_neg hl, if_pos rfl, if_pos rfl] at harg
                cases harg
        · rw [if_neg hn, hcons]
          exact depth_cons_iff (fun arg => by rw [depth, if_neg hl, if_pos hr, if_neg hn]) fun _ => hn
      · rw [if_neg hr, hcons]
        exact depth_cons_iff (fun arg => by rw [depth, if_neg hl, if_neg hr]) fun h => absurd h hr

end Scan
