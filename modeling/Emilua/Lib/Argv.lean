import Mathlib

/-!
Splitting a command line into arguments, over any alphabet with a quote, a
backslash and blanks. Backslashes have a meaning only in front of a quote: pairs
stand for one each, and one left over makes the quote an ordinary character. Any
other quote turns quoting on or off, and blanks separate while it is off.

The escapes are read first and the quoting is followed afterwards, so that the
same tokens can be looked at with quoting on and off.
-/
namespace Argv

structure Rules (α : Type) where
  quote : α
  backslash : α
  blank : α → Bool
  quote_ne : quote ≠ backslash
  quote_solid : blank quote = false
  backslash_solid : blank backslash = false

inductive Token (α : Type) where
  | toggle
  | char (c : α)
deriving DecidableEq

variable {α : Type} [DecidableEq α] (R : Rules α)

namespace Rules

/-- So many backslashes have been read whose meaning is still open. -/
def tokens : Nat → List α → List (Token α)
  | n, [] => List.replicate n (.char R.backslash)
  | n, c :: s =>
      if c = R.backslash then tokens (n + 1) s
      else if c = R.quote then
        List.replicate (n / 2) (.char R.backslash) ++
          (if n % 2 = 1 then .char c else .toggle) :: tokens 0 s
      else List.replicate n (.char R.backslash) ++ .char c :: tokens 0 s

omit [DecidableEq α] in
/-- The argument that is being read is there as soon as a quote was. -/
def words : Bool → Option (List α) → List (Token α) → List (List α)
  | _, cur, [] => cur.toList
  | quoted, cur, .toggle :: ts => words (!quoted) (some (cur.getD [])) ts
  | quoted, cur, .char c :: ts =>
      if R.blank c && !quoted then cur.toList ++ words false none ts
      else words quoted (some (cur.getD [] ++ [c])) ts

def split (line : List α) : List (List α) := R.words false none (R.tokens 0 line)

/-- The program name ends at the next quote or at a blank; it knows no escapes. -/
def programName : List α → List α × List α
  | [] => ([], [])
  | c :: s =>
      if c = R.quote then (s.takeWhile (· ≠ R.quote), (s.dropWhile (· ≠ R.quote)).drop 1)
      else ((c :: s).takeWhile (!R.blank ·), (c :: s).dropWhile (!R.blank ·))

def splitProgram (line : List α) : List (List α) :=
  (R.programName line).1 :: R.split (R.programName line).2

theorem tokens_backslashes (n k : Nat) (s : List α) :
    R.tokens n (List.replicate k R.backslash ++ s) = R.tokens (n + k) s := by
  induction k generalizing n with
  | zero => rfl
  | succ k ih =>
      rw [List.replicate_succ, List.cons_append, tokens, if_pos rfl, ih]
      congr 1
      omega

theorem tokens_quote (n : Nat) (s : List α) :
    R.tokens n (R.quote :: s) = List.replicate (n / 2) (.char R.backslash) ++
      (if n % 2 = 1 then .char R.quote else .toggle) :: R.tokens 0 s := by
  rw [tokens, if_neg R.quote_ne, if_pos rfl]

theorem tokens_char {c : α} (hb : c ≠ R.backslash) (hq : c ≠ R.quote) (n : Nat) (s : List α) :
    R.tokens n (c :: s) = List.replicate n (.char R.backslash) ++ .char c :: R.tokens 0 s := by
  rw [tokens, if_neg hb, if_neg hq]

omit [DecidableEq α] in
theorem ne_of_blank {c : α} (hblank : R.blank c = true) : c ≠ R.backslash ∧ c ≠ R.quote := by
  constructor
  · rintro rfl
    rw [R.backslash_solid] at hblank
    cases hblank
  · rintro rfl
    rw [R.quote_solid] at hblank
    cases hblank

/-- What follows an argument on the line. -/
def Ends (rest : List α) : Prop := ∀ c ∈ rest.head?, R.blank c = true

/-- Open backslashes in front of the end of an argument are ordinary characters. -/
theorem tokens_ends (n : Nat) {rest : List α} (hends : R.Ends rest) :
    R.tokens n rest = List.replicate n (.char R.backslash) ++ R.tokens 0 rest := by
  cases rest with
  | nil => simp [tokens]
  | cons c s =>
      obtain ⟨hb, hq⟩ := R.ne_of_blank (hends c rfl)
      rw [R.tokens_char hb hq, R.tokens_char hb hq]
      rfl

/-- Without quotes nothing has a meaning. -/
theorem tokens_plain {s rest : List α} (hs : R.quote ∉ s) (hends : R.Ends rest) (n : Nat) :
    R.tokens n (s ++ rest) = List.replicate n (.char R.backslash) ++
      (s.map .char ++ R.tokens 0 rest) := by
  induction s generalizing n with
  | nil => exact R.tokens_ends n hends
  | cons c s ih =>
      have htail := ih fun hmem => hs (List.mem_cons_of_mem _ hmem)
      rw [List.cons_append]
      by_cases hb : c = R.backslash
      · rw [tokens, if_pos hb, htail, hb, List.replicate_succ', List.append_assoc]
        rfl
      · have hq : c ≠ R.quote := by
          rintro rfl
          exact hs (List.mem_cons_self ..)
        rw [R.tokens_char hb hq, htail]
        rfl

section Words
omit [DecidableEq α]

/-- Characters that do not separate are added to the argument. -/
theorem words_text {s : List α} {quoted : Bool} (h : quoted = true ∨ ∀ c ∈ s, R.blank c = false)
    (cur : List α) (ts : List (Token α)) :
    R.words quoted (some cur) (s.map .char ++ ts) = R.words quoted (some (cur ++ s)) ts := by
  induction s generalizing cur with
  | nil => simp
  | cons c s ih =>
      have hjoin : (R.blank c && !quoted) = false := by
        rcases h with rfl | h
        · simp
        · simp [h c (List.mem_cons_self ..)]
      have htail : quoted = true ∨ ∀ c ∈ s, R.blank c = false :=
        h.imp_right fun h c hc => h c (List.mem_cons_of_mem _ hc)
      rw [List.map_cons, List.cons_append, words, hjoin]
      simp only [Bool.false_eq_true, if_false, Option.getD_some]
      rw [ih htail, List.append_assoc]
      rfl

/-- Blanks between arguments. -/
theorem words_blanks {s : List α} (h : ∀ c ∈ s, R.blank c = true) (ts : List (Token α)) :
    R.words false none (s.map .char ++ ts) = R.words false none ts := by
  induction s with
  | nil => rfl
  | cons c s ih =>
      rw [List.map_cons, List.cons_append, words, h c (List.mem_cons_self ..)]
      exact ih fun c hc => h c (List.mem_cons_of_mem _ hc)

/-- The argument that is being read comes first and keeps what it has. -/
theorem words_some (quoted : Bool) (cur : List α) (ts : List (Token α)) :
    ∃ w ws, R.words quoted (some cur) ts = w :: ws ∧ cur <+: w := by
  induction ts generalizing quoted cur with
  | nil => exact ⟨cur, [], rfl, List.prefix_rfl⟩
  | cons t ts ih =>
      cases t with
      | toggle => exact ih (!quoted) cur
      | char c =>
          rw [words]
          split
          · exact ⟨cur, _, rfl, List.prefix_rfl⟩
          · obtain ⟨w, ws, heq, hpre⟩ := ih quoted (cur ++ [c])
            exact ⟨w, ws, heq, (List.prefix_append _ _).trans hpre⟩

/-- The characters that are not blanks. -/
def solid (s : List α) : Nat := s.countP (!R.blank ·)

def tokensSolid : List (Token α) → Nat
  | [] => 0
  | .toggle :: ts => tokensSolid ts
  | .char c :: ts => R.solid [c] + tokensSolid ts

theorem tokensSolid_append (s : List α) (ts : List (Token α)) :
    R.tokensSolid (s.map .char ++ ts) = R.solid s + R.tokensSolid ts := by
  induction s with
  | nil => simp [solid]
  | cons c s ih =>
      have hsplit : R.solid (c :: s) = R.solid [c] + R.solid s := by
        rw [solid, solid, solid, ← List.singleton_append, List.countP_append]
      rw [List.map_cons, List.cons_append, tokensSolid, ih, hsplit, Nat.add_assoc]

/-- They end up in the arguments, however the line is quoted. -/
theorem solid_words (quoted : Bool) (cur : Option (List α)) (ts : List (Token α)) :
    ((R.words quoted cur ts).map R.solid).sum = R.solid (cur.getD []) + R.tokensSolid ts := by
  induction ts generalizing quoted cur with
  | nil => cases cur <;> simp [words, tokensSolid, solid]
  | cons t ts ih =>
      cases t with
      | toggle => rw [words, ih, tokensSolid, Option.getD_some]
      | char c =>
          rw [words, tokensSolid]
          split
          · rename_i hsep
            have hblank : R.blank c = true := (Bool.and_eq_true_iff.mp hsep).1
            rw [List.map_append, List.sum_append, ih]
            cases cur <;> simp [solid, hblank]
          · rw [ih, Option.getD_some, solid, List.countP_append, Nat.add_assoc]
            rfl

end Words

/-! Arguments as they stand on a line. -/

/-- A form from which one argument is read back: bare, or between quotes. -/
inductive Form : List α → List α → Prop
  | bare {arg : List α} (hne : arg ≠ []) (hsolid : ∀ c ∈ arg, R.blank c = false)
      (hquote : R.quote ∉ arg) : Form arg arg
  | quoted {form arg : List α} (htokens : ∀ rest, R.tokens 0 (form ++ rest) =
      .toggle :: (arg.map .char ++ .toggle :: R.tokens 0 rest)) : Form form arg

variable {R} {form arg rest : List α} {forms args : List (List α)} {sep : α}

theorem Form.read (hf : R.Form form arg) (hends : R.Ends rest) :
    R.words false none (R.tokens 0 (form ++ rest)) = R.words false (some arg) (R.tokens 0 rest) := by
  cases hf with
  | bare hne hsolid hquote =>
      rw [R.tokens_plain hquote hends, List.replicate_zero, List.nil_append]
      obtain ⟨c, s, rfl⟩ := List.exists_cons_of_ne_nil hne
      have hc : R.blank c = false := hsolid c (List.mem_cons_self ..)
      have htext := @words_text _ R s false
        (.inr fun d hd => hsolid d (List.mem_cons_of_mem _ hd)) [c] (R.tokens 0 rest)
      rw [List.map_cons, List.cons_append, words, hc]
      exact htext
  | quoted htokens =>
      rw [htokens, words, Bool.not_false, R.words_text (.inl rfl), words]
      rfl

omit [DecidableEq α] in
theorem ends_flatMap (hsep : R.blank sep = true) (forms : List (List α)) :
    R.Ends (forms.flatMap (sep :: ·)) := by
  cases forms with
  | nil => exact nofun
  | cons form forms =>
      intro c hc
      obtain rfl : sep = c := by simpa using hc
      exact hsep

theorem tokens_sep (hsep : R.blank sep = true) (s : List α) :
    R.tokens 0 (sep :: s) = .char sep :: R.tokens 0 s := by
  obtain ⟨hb, hq⟩ := R.ne_of_blank hsep
  rw [R.tokens_char hb hq]
  rfl

/-- The arguments of a line are read one after the other. -/
theorem words_forms (hsep : R.blank sep = true) (hforms : List.Forall₂ R.Form forms args)
    (cur : List α) :
    R.words false (some cur) (R.tokens 0 (forms.flatMap (sep :: ·))) = cur :: args := by
  induction hforms generalizing cur with
  | nil => rfl
  | @cons form arg forms args hform _ ih =>
      rw [List.flatMap_cons, List.cons_append, tokens_sep hsep, words, hsep]
      simp only [Bool.not_false, Bool.and_self, if_true, Option.toList_some]
      rw [hform.read (ends_flatMap hsep forms), ih]
      rfl

theorem split_forms (hsep : R.blank sep = true) (hform : R.Form form arg)
    (hforms : List.Forall₂ R.Form forms args) :
    R.split (form ++ forms.flatMap (sep :: ·)) = arg :: args := by
  rw [split, hform.read (ends_flatMap hsep forms), words_forms hsep hforms]

/-! Lines that are read with quoting on where it should be off. -/

theorem words_shifted (hsep : R.blank sep = true) (hforms : List.Forall₂ R.Form forms args) :
    R.words true (some []) (R.tokens 0 (forms.flatMap (sep :: ·))) ≠ args := by
  induction hforms with
  | nil => simp [tokens, words]
  | @cons form arg forms args hform _ ih =>
      intro heq
      rw [List.flatMap_cons, List.cons_append, tokens_sep hsep, words, hsep] at heq
      simp only [Bool.not_true, Bool.and_false, Bool.false_eq_true, if_false, Option.getD_some,
        List.nil_append] at heq
      obtain ⟨w, ws, hwords, a, rfl⟩ := R.words_some true [sep]
        (R.tokens 0 (form ++ forms.flatMap (sep :: ·)))
      obtain ⟨rfl, rfl⟩ := List.cons.inj (hwords.symm.trans heq)
      cases hform with
      | bare _ hsolid _ =>
          have hblank := hsolid sep (List.mem_cons_self ..)
          rw [hsep] at hblank
          cases hblank
      | quoted htokens =>
          rw [htokens, words, List.singleton_append, List.map_cons, List.cons_append, words,
            hsep] at hwords
          simp only [Bool.not_true, Bool.not_false, Bool.and_self, if_true, Option.getD_some,
            Option.toList_some, List.singleton_append] at hwords
          obtain ⟨ha, hrest⟩ := List.cons.inj hwords
          obtain rfl : a = [] := by simpa using ha.symm
          exact ih hrest

/-- The rest of an argument followed by its closing quote, read from the outside. -/
theorem words_misread (hsep : R.blank sep = true) (hforms : List.Forall₂ R.Form forms args)
    (s : List α) :
    R.words false none
      (s.map .char ++ .toggle :: R.tokens 0 (forms.flatMap (sep :: ·))) ≠ args := by
  intro heq
  have htokens : ∀ {forms args : List (List α)}, List.Forall₂ R.Form forms args →
      R.tokensSolid (R.tokens 0 (forms.flatMap (sep :: ·))) = (args.map R.solid).sum := by
    intro forms args hforms
    have hwords := congrArg (fun ws => (ws.map R.solid).sum) (words_forms hsep hforms [])
    simp only [R.solid_words] at hwords
    simpa [solid] using hwords
  have hsolid := R.solid_words false none
    (s.map .char ++ .toggle :: R.tokens 0 (forms.flatMap (sep :: ·)))
  rw [heq, R.tokensSolid_append, tokensSolid, htokens hforms] at hsolid
  have hblanks : ∀ c ∈ s, R.blank c = true := by
    have hzero : R.solid s = 0 := by
      have hnone : R.solid (Option.getD none []) = 0 := rfl
      omega
    rw [solid, List.countP_eq_zero] at hzero
    simpa using hzero
  rw [R.words_blanks hblanks, words] at heq
  exact words_shifted hsep hforms heq

theorem programName_quoted {s : List α} (hs : R.quote ∉ s) (rest : List α) :
    R.programName (R.quote :: (s ++ R.quote :: rest)) = (s, rest) := by
  have hne : ∀ c ∈ s, decide (c ≠ R.quote) = true := by
    intro c hc
    simp only [ne_eq, decide_not, Bool.not_eq_true', decide_eq_false_iff_not]
    rintro rfl
    exact hs hc
  rw [programName, if_pos rfl, List.takeWhile_append_of_pos hne, List.dropWhile_append_of_pos hne]
  simp

theorem programName_bare {s : List α} (hne : s ≠ []) (hsolid : ∀ c ∈ s, R.blank c = false)
    (hquote : R.quote ∉ s) (hends : R.Ends rest) : R.programName (s ++ rest) = (s, rest) := by
  obtain ⟨c, s, rfl⟩ := List.exists_cons_of_ne_nil hne
  have hq : c ≠ R.quote := by
    rintro rfl
    exact hquote (List.mem_cons_self ..)
  have htake : ∀ d ∈ c :: s, (!R.blank d) = true := by
    intro d hd
    simp [hsolid d hd]
  rw [List.cons_append, programName, if_neg hq, ← List.cons_append,
    List.takeWhile_append_of_pos htake, List.dropWhile_append_of_pos htake]
  cases rest with
  | nil => simp
  | cons d rest => simp [hends d rfl]

end Rules

/-! A character that takes the meaning from the next one. -/

def marks (esc : α) : Bool → List α → List (Bool × α)
  | _, [] => []
  | true, c :: s => (true, c) :: marks esc false s
  | false, c :: s => if c = esc then marks esc true s else (false, c) :: marks esc false s

/-- The line without one level of escapes. -/
def unescape (esc : α) (line : List α) : List α := (marks esc false line).map Prod.snd

theorem marks_escaped (esc c : α) (s : List α) :
    marks esc false (esc :: c :: s) = (true, c) :: marks esc false s := by
  rw [marks, if_pos rfl, marks]

theorem marks_plain {esc : α} {s : List α} (hs : esc ∉ s) (rest : List α) :
    marks esc false (s ++ rest) = s.map (false, ·) ++ marks esc false rest := by
  induction s with
  | nil => rfl
  | cons c s ih =>
      have hc : c ≠ esc := by
        rintro rfl
        exact hs (List.mem_cons_self ..)
      rw [List.cons_append, marks, if_neg hc, ih fun hmem => hs (List.mem_cons_of_mem _ hmem)]
      rfl

end Argv
