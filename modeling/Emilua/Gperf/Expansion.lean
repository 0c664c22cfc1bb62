import Emilua.Gperf.Document

/-!
The preprocessor on the text of a document: it comes to what the document is to
be expanded to, up to the first thing in it that is unfinished.
-/
namespace Emilua.Gperf
open Fuel Scan

/-! Arguments. -/

section
variable {s arg rest t : Text} {c : Char} {i n fuel : Nat}

/-- A turn of the loop at a character. -/
theorem argumentsLoop_step (hi : 0 < i) (ht : s.drop (i - 1) = c :: t) :
    s.drop (i + 1 - 1) = t ∧ argumentsLoop s (fuel + 1) i (n + 1) =
      if c = '(' then argumentsLoop s fuel (i + 1) (n + 1 + 1)
      else if c = ')' then argumentsLoop s fuel (i + 1) n
      else argumentsLoop s fuel (i + 1) (n + 1) := by
  have hget : s[i - 1]? = some c := by
    have h := congrArg (·[0]?) ht
    simpa using h
  constructor
  · have h := congrArg (List.drop 1) ht
    rw [List.drop_drop] at h
    rwa [show i + 1 - 1 = i - 1 + 1 by omega]
  · simp only [argumentsLoop, hget, Nat.succ_ne_zero, if_false, Option.some.injEq, Nat.add_sub_cancel]

/-- Where a parenthesis closes what is open, the loop ends behind it. -/
theorem argumentsLoop_close (hi : 0 < i) (ht : s.drop (i - 1) = t) (h : close '(' ')' n t = some (arg, rest)) :
    ∃ m, ∀ fuel, m ≤ fuel → argumentsLoop s fuel i (n + 1) = some (i + arg.length + 1) := by
  induction t generalizing i n arg with
  | nil => cases h
  | cons c t ih =>
      have hnext (k : Nat) (h : (close '(' ')' k t).map (fun found => (c :: found.1, found.2)) = some (arg, rest))
          (hstep : ∀ fuel, argumentsLoop s (fuel + 1) i (n + 1) = argumentsLoop s fuel (i + 1) (k + 1)) :
          ∃ m, ∀ fuel, m ≤ fuel → argumentsLoop s fuel i (n + 1) = some (i + arg.length + 1) := by
        obtain ⟨⟨arg', rest'⟩, hclose, heq⟩ := Option.map_eq_some_iff.mp h
        cases heq
        obtain ⟨m, hm⟩ := ih (Nat.succ_pos i) (@argumentsLoop_step s t c i n 0 hi ht).1 hclose
        refine ⟨m + 1, fun fuel hfuel => ?_⟩
        obtain ⟨fuel, rfl⟩ : ∃ k, fuel = k + 1 := ⟨fuel - 1, by omega⟩
        rw [hstep, hm fuel (by omega), List.length_cons]
        exact congrArg some (Nat.add_right_comm i 1 arg'.length ▸ rfl)
      rw [close] at h
      by_cases hl : c = '('
      · rw [if_pos hl] at h
        refine hnext (n + 1) h fun fuel => ?_
        rw [(argumentsLoop_step hi ht).2, if_pos hl]
      rw [if_neg hl] at h
      by_cases hr : c = ')'
      · rw [if_pos hr] at h
        by_cases hn : n = 0
        · subst hn
          cases h
          refine ⟨2, fun fuel hfuel => ?_⟩
          obtain ⟨fuel, rfl⟩ : ∃ k, fuel = k + 1 + 1 := ⟨fuel - 2, by omega⟩
          rw [(argumentsLoop_step hi ht).2, if_neg hl, if_pos hr, argumentsLoop, if_pos rfl]
          rfl
        · rw [if_neg hn] at h
          refine hnext (n - 1) h fun fuel => ?_
          rw [(argumentsLoop_step hi ht).2, if_neg hl, if_pos hr, Nat.sub_add_cancel (Nat.pos_of_ne_zero hn)]
      · rw [if_neg hr] at h
        refine hnext n h fun fuel => ?_
        rw [(argumentsLoop_step hi ht).2, if_neg hl, if_neg hr]

/-- Where none does, it has no end. -/
theorem argumentsLoop_unclosed (hi : 0 < i) (h : close '(' ')' n (s.drop (i - 1)) = none) :
    argumentsLoop s fuel i (n + 1) = none := by
  induction fuel generalizing i n with
  | zero => rfl
  | succ fuel ih =>
      cases ht : s.drop (i - 1) with
      | nil =>
          have hlength : s.length ≤ i - 1 := List.drop_eq_nil_iff.mp ht
          have hget : s[i - 1]? = none := List.getElem?_eq_none hlength
          simp only [argumentsLoop, hget, Nat.succ_ne_zero, if_false, reduceCtorEq]
          apply ih (Nat.succ_pos i)
          rw [List.drop_eq_nil_iff.mpr (by omega)]
          rfl
      | cons c t =>
          obtain ⟨hdrop, hstep⟩ := @argumentsLoop_step s t c i n fuel hi ht
          rw [ht, close] at h
          rw [hstep]
          by_cases hl : c = '('
          · rw [if_pos hl] at h ⊢
            exact ih (Nat.succ_pos i) (by rw [hdrop]; exact Option.map_eq_none_iff.mp h)
          rw [if_neg hl] at h ⊢
          by_cases hr : c = ')'
          · rw [if_pos hr] at h ⊢
            by_cases hn : n = 0
            · rw [if_pos hn] at h
              cases h
            · rw [if_neg hn] at h
              have hloop := ih (Nat.succ_pos i) (by rw [hdrop]; exact Option.map_eq_none_iff.mp h)
              rwa [Nat.sub_add_cancel (Nat.pos_of_ne_zero hn)] at hloop
          · rw [if_neg hr] at h ⊢
            exact ih (Nat.succ_pos i) (by rw [hdrop]; exact Option.map_eq_none_iff.mp h)

theorem processArguments_closed (harg : BalancedArg arg) (g : Globals) :
    Settles (fun fuel => processArguments fuel ⟨parens arg ++ rest, g⟩) (.ok (arg, ⟨rest, g⟩)) := by
  have hclose : close '(' ')' 0 (arg ++ ')' :: rest) = some (arg, rest) :=
    (close_some_iff (by decide)).mpr ⟨rfl, harg⟩
  have hrecord : parens arg ++ rest = '(' :: (arg ++ ')' :: rest) := by simp [parens]
  obtain ⟨m, hm⟩ := argumentsLoop_close (s := parens arg ++ rest) (i := 2) (by decide) (by rw [hrecord]; rfl) hclose
  refine ⟨m, fun fuel hfuel => ?_⟩
  have hopen : (parens arg ++ rest).take 1 = ['('] := by rw [hrecord]; rfl
  simp only [processArguments, hopen, ne_eq, not_true_eq_false, if_false, hm fuel hfuel]
  rw [hrecord]
  have htake : 2 + arg.length + 1 - 3 = arg.length := by omega
  have hdrop : 2 + arg.length + 1 - 1 = arg.length + 1 + 1 := by omega
  rw [htake, hdrop, List.drop_succ_cons, List.drop_zero, List.take_left, List.drop_succ_cons,
    show arg ++ ')' :: rest = (arg ++ [')']) ++ rest by simp,
    show arg.length + 1 = (arg ++ [')']).length by simp, List.drop_left]

theorem processArguments_stop {s : Stop} (hs : s.WellFormed) (g : Globals) :
    Yields (fun fuel => processArguments fuel ⟨s.render, g⟩) id (.error s.fault) := by
  cases s with
  | unclosed rest => trivial
  | noParens rest =>
      refine ⟨0, fun fuel _ => ?_⟩
      exact if_pos hs

end

/-! Blocks. -/

section
variable {tool : Tool}

/-- What a block comes to, with what follows it left in `$0`. -/
def leaving (tail : Text) (r : Text × Globals) : Text × Awk := (r.1, ⟨tail, r.2⟩)

theorem expandBlocks_text {t acc : Text} {g : Globals} (h : firstMatch Macro.word [.blockBegin] t = none) (fuel : Nat) :
    expandBlocks tool (fuel + 1) acc ⟨t, g⟩ = some (.ok (acc ++ t, g)) := by
  rw [expandBlocks]
  simp only [h]

theorem expandBlocks_block {before after acc : Text} {g : Globals} (h : First [.blockBegin] before .blockBegin after)
    (fuel : Nat) : expandBlocks tool (fuel + 1) acc ⟨before ++ (Macro.blockBegin.word ++ after), g⟩ =
      andThen (processGperfBlock tool fuel ⟨after, g⟩) fun r => expandBlocks tool fuel (acc ++ before ++ r.1) r.2 := by
  rw [First] at h
  rw [expandBlocks]
  simp only [h]

section
variable {skipped after : Text} {context : Context} {g : Globals} {fuel : Nat}

theorem blockLoop_blockBegin (h : First blockMacros skipped .blockBegin after) :
    blockLoop tool (fuel + 1) context ⟨skipped ++ (Macro.blockBegin.word ++ after), g⟩ =
      some (.error .blockCannotAppearHere) := by
  rw [First] at h
  rw [blockLoop]
  simp only [h]

theorem blockLoop_blockEnd (h : First blockMacros skipped .blockEnd after) :
    blockLoop tool (fuel + 1) context ⟨skipped ++ (Macro.blockEnd.word ++ after), g⟩ =
      andThen (processArguments fuel ⟨after, g⟩) fun r =>
        if r.1 ≠ context.symbol then some (.error (.mismatchedBlocks context.symbol))
        else some ((gperf tool context r.2.globals).map fun r' => (r'.1, { r.2 with globals := r'.2 })) := by
  rw [First] at h
  rw [blockLoop]
  simp only [h]

theorem blockLoop_param (h : First blockMacros skipped .param after) :
    blockLoop tool (fuel + 1) context ⟨skipped ++ (Macro.param.word ++ after), g⟩ =
      andThen (processArguments fuel ⟨after, g⟩) fun r => blockLoop tool fuel { context with param := r.1 } r.2 := by
  rw [First] at h
  rw [blockLoop]
  simp only [h]

theorem blockLoop_ppguard (h : First blockMacros skipped .ppguard after) :
    blockLoop tool (fuel + 1) context ⟨skipped ++ (Macro.ppguard.word ++ after), g⟩ =
      andThen (processArguments fuel ⟨after, g⟩) fun r => blockLoop tool fuel { context with ppguard := r.1 } r.2 := by
  rw [First] at h
  rw [blockLoop]
  simp only [h]

theorem blockLoop_defaultValue (h : First blockMacros skipped .defaultValue after) :
    blockLoop tool (fuel + 1) context ⟨skipped ++ (Macro.defaultValue.word ++ after), g⟩ =
      andThen (processDefaultValue tool fuel context ⟨after, g⟩) fun r => blockLoop tool fuel r.1 r.2 := by
  rw [First] at h
  rw [blockLoop]
  simp only [h]

theorem blockLoop_pair (h : First blockMacros skipped .pair after) :
    blockLoop tool (fuel + 1) context ⟨skipped ++ (Macro.pair.word ++ after), g⟩ =
      andThen (processPair tool fuel context ⟨after, g⟩) fun r => blockLoop tool fuel r.1 r.2 := by
  rw [First] at h
  rw [blockLoop]
  simp only [h]

end

theorem bind_pure_eq {α : Type} (r : Except (Fault Exit) α) : (r >>= fun a => .ok a) = r := by
  cases r <;> rfl

section
variable {value : Value} {context : Context} {g : Globals} {rest : Text}

theorem processDefaultValue_yields (hvalue : Yields (fun fuel => expandBlocks tool fuel [] ⟨value.render, g⟩)
      (fun r => ([] ++ r.1, r.2)) (value.expand tool g)) (hbalanced : BalancedArg value.render) :
    Yields (fun fuel => processDefaultValue tool fuel context ⟨parens value.render ++ rest, g⟩)
      (fun r => ({ context with defaultValue := r.1 }, ⟨rest, r.2⟩)) (value.expand tool g) := by
  refine Yields.succ (fun fuel => rfl) (Yields.after (processArguments_closed hbalanced g) ?_)
  rw [← bind_pure_eq (value.expand tool g)]
  exact Yields.andThen hvalue fun r _ => settles_const _

theorem processPair_yields {front : Text} (hvalue : Yields (fun fuel => expandBlocks tool fuel [] ⟨value.render, g⟩)
      (fun r => ([] ++ r.1, r.2)) (value.expand tool g)) (hbalanced : BalancedArg (front ++ value.render))
    (hsplit : splitComma (front ++ value.render) = (front, value.render)) :
    Yields (fun fuel => processPair tool fuel context ⟨parens (front ++ value.render) ++ rest, g⟩)
      (fun r => ({ context with
          pairs := context.pairs ++ [(pairKey (front ++ value.render), r.2.nextValue, escapeAmpersands r.1)] },
        ⟨rest, { r.2 with nextValue := r.2.nextValue + 1 }⟩))
      (if (context.pairs.map Prod.fst).contains (pairKey (front ++ value.render)) then
        .error (.raised (.duplicateValue (pairKey (front ++ value.render))))
      else value.expand tool g) := by
  refine Yields.succ (fun fuel => rfl) (Yields.after (processArguments_closed hbalanced g) ?_)
  dsimp only
  split
  · exact settles_const _
  · rw [← bind_pure_eq (value.expand tool g), hsplit]
    exact Yields.andThen hvalue fun r _ => settles_const _

end

theorem expand_pair (skipped front : Text) (value : Value) (body : Body) (context : Context) (g : Globals) :
    (Body.pair skipped front value body).expand tool context g =
      (if (context.pairs.map Prod.fst).contains (pairKey (front ++ value.render)) then
        .error (.raised (.duplicateValue (pairKey (front ++ value.render))))
      else value.expand tool g) >>= fun r =>
        body.expand tool { context with
            pairs := context.pairs ++ [(pairKey (front ++ value.render), r.2.nextValue, escapeAmpersands r.1)] }
          { r.2 with nextValue := r.2.nextValue + 1 } := by
  rw [Body.expand]
  dsimp only
  split <;> rfl

theorem blockLoop_stop {skipped : Text} {found : Macro} {s : Stop} {context : Context} {g : Globals}
    (hfirst : First blockMacros skipped found s.render) (hbegin : found ≠ .blockBegin) (hs : s.WellFormed) :
    Yields (fun fuel => blockLoop tool fuel context ⟨skipped ++ (found.word ++ s.render), g⟩) (leaving [])
      (.error s.fault) := by
  have harguments := processArguments_stop hs g
  cases found with
  | blockBegin => exact absurd rfl hbegin
  | declsBegin => exact absurd (firstMatch_some hfirst).2 (by decide)
  | blockEnd => exact Yields.succ (fun fuel => blockLoop_blockEnd hfirst) (Yields.stop harguments)
  | param => exact Yields.succ (fun fuel => blockLoop_param hfirst) (Yields.stop harguments)
  | ppguard => exact Yields.succ (fun fuel => blockLoop_ppguard hfirst) (Yields.stop harguments)
  | defaultValue =>
      apply Yields.succ fun fuel => blockLoop_defaultValue hfirst
      exact Yields.stop (Yields.succ (fun fuel => rfl) (Yields.stop harguments))
  | pair =>
      apply Yields.succ fun fuel => blockLoop_pair hfirst
      exact Yields.stop (Yields.succ (fun fuel => rfl) (Yields.stop harguments))

/-! The induction is on the document; a text stops where its reading does. -/

mutual

theorem Value.yields (tool : Tool) : ∀ (v : Value), v.WellFormed → ∀ (g : Globals) (acc : Text),
    Yields (fun fuel => expandBlocks tool fuel acc ⟨v.render, g⟩) (fun r => (acc ++ r.1, r.2)) (v.expand tool g)
  | .text t, hv, g, acc => by
      apply Yields.succ (expandBlocks_text hv)
      exact settles_const _
  | .block before b after, ⟨hfirst, hb, hafter⟩, g, acc => by
      apply Yields.succ (expandBlocks_block hfirst)
      refine Yields.andThen (b.yields tool after.render hb g) fun r _ => ?_
      have hrest := after.yields tool hafter r.2 (acc ++ before ++ r.1)
      apply Yields.map
      simpa only [List.append_assoc, leaving] using hrest

theorem Block.yields (tool : Tool) : ∀ (b : Block) (tail : Text), b.WellFormed tail → ∀ (g : Globals),
    Yields (fun fuel => processGperfBlock tool fuel ⟨b.render ++ tail, g⟩) (leaving tail) (b.expand tool g)
  | .stop s, tail, ⟨hs, htail⟩, g => by
      subst htail
      rw [Block.render, List.append_nil]
      exact Yields.succ (fun fuel => rfl) (Yields.stop (processArguments_stop hs _))
  | .named symbol body, tail, ⟨hsymbol, hbody⟩, g => by
      rw [Block.render, List.append_assoc]
      refine Yields.succ (fun fuel => rfl) (Yields.after (processArguments_closed hsymbol _) ?_)
      rw [Block.expand]
      dsimp only
      split
      · exact body.yields tool tail hbody _ _
      · exact settles_const _

theorem Body.yields (tool : Tool) : ∀ (b : Body) (tail : Text), b.WellFormed tail → ∀ (context : Context) (g : Globals),
    Yields (fun fuel => blockLoop tool fuel context ⟨b.render ++ tail, g⟩) (leaving tail) (b.expand tool context g)
  | .unfinished rest, tail, _, context, g => trivial
  | .misplaced skipped rest, tail, ⟨hfirst, htail⟩, context, g => by
      subst htail
      rw [Body.render, List.append_nil]
      exact Yields.succ (fun fuel => blockLoop_blockBegin hfirst) (settles_const _)
  | .stop skipped found s, tail, ⟨hfirst, hbegin, hs, htail⟩, context, g => by
      subst htail
      rw [Body.render, List.append_nil]
      exact blockLoop_stop hfirst hbegin hs
  | .finish skipped symbol, tail, ⟨hfirst, hsymbol⟩, context, g => by
      rw [Body.render, List.append_assoc, List.append_assoc]
      refine Yields.succ (fun fuel => blockLoop_blockEnd hfirst) (Yields.after (processArguments_closed hsymbol g) ?_)
      rw [Body.expand]
      dsimp only
      split
      · exact settles_const _
      · cases gperf tool context g <;> exact settles_const _
  | .param skipped arg body, tail, ⟨hfirst, harg, hbody⟩, context, g => by
      rw [Body.render, List.append_assoc, List.append_assoc, List.append_assoc]
      refine Yields.succ (fun fuel => blockLoop_param hfirst) (Yields.after (processArguments_closed harg g) ?_)
      exact body.yields tool tail hbody _ _
  | .ppguard skipped arg body, tail, ⟨hfirst, harg, hbody⟩, context, g => by
      rw [Body.render, List.append_assoc, List.append_assoc, List.append_assoc]
      refine Yields.succ (fun fuel => blockLoop_ppguard hfirst) (Yields.after (processArguments_closed harg g) ?_)
      exact body.yields tool tail hbody _ _
  | .defaultValue skipped value body, tail, ⟨hfirst, hbalanced, hvalue, hbody⟩, context, g => by
      rw [Body.render, List.append_assoc, List.append_assoc, List.append_assoc]
      apply Yields.succ fun fuel => blockLoop_defaultValue hfirst
      exact Yields.andThen (processDefaultValue_yields (value.yields tool hvalue g []) hbalanced) fun r _ =>
        body.yields tool tail hbody _ _
  | .pair skipped front value body, tail, ⟨hfirst, hbalanced, hsplit, hvalue, hbody⟩, context, g => by
      rw [Body.render, List.append_assoc, List.append_assoc, List.append_assoc]
      apply Yields.succ fun fuel => blockLoop_pair hfirst
      rw [expand_pair]
      exact Yields.andThen (processPair_yields (value.yields tool hvalue g []) hbalanced hsplit) fun r _ =>
        body.yields tool tail hbody _ _

end

/-! The whole input. -/

theorem Decls.yields {d : Decls} {tail : Text} (hd : d.WellFormed tail) (g : Globals) :
    Yields (fun fuel => processDeclsBlock tool fuel ⟨d.render ++ tail, g⟩) (fun g => ⟨tail, g⟩) (d.expand tool g) := by
  cases d with
  | stop s =>
      obtain ⟨hs, rfl⟩ := hd
      rw [Decls.render, List.append_nil]
      exact Yields.stop (processArguments_stop hs g)
  | unfinished symbol rest => trivial
  | finish symbol value =>
      obtain ⟨hsymbol, hend, hvalue⟩ := hd
      rw [Decls.render, List.append_assoc, List.append_assoc]
      have hsplit : splitDecls symbol (value.render ++ (declsEnd symbol ++ tail)) = (value.render, tail) := by
        rw [FirstEnd] at hend
        rw [splitDecls]
        simp only [hend]
      refine Yields.after (processArguments_closed hsymbol g) ?_
      dsimp only
      rw [hsplit]
      exact Yields.andThen (value.yields tool hvalue g []) fun r _ => settles_const _

theorem mainLoop_text {t outputBody : Text} {g : Globals} (h : firstMatch Macro.word topMacros t = none) (fuel : Nat) :
    mainLoop tool (fuel + 1) outputBody ⟨t, g⟩ = some (.ok (outputBody ++ t, g)) := by
  rw [mainLoop]
  simp only [h]

theorem mainLoop_block {before after outputBody : Text} {g : Globals} (h : First topMacros before .blockBegin after)
    (fuel : Nat) : mainLoop tool (fuel + 1) outputBody ⟨before ++ (Macro.blockBegin.word ++ after), g⟩ =
      andThen (processGperfBlock tool fuel ⟨after, g⟩) fun r =>
        mainLoop tool fuel (outputBody ++ before ++ r.1) r.2 := by
  rw [First] at h
  rw [mainLoop]
  simp only [h, reduceCtorEq, if_false]

theorem mainLoop_decls {before after outputBody : Text} {g : Globals} (h : First topMacros before .declsBegin after)
    (fuel : Nat) : mainLoop tool (fuel + 1) outputBody ⟨before ++ (Macro.declsBegin.word ++ after), g⟩ =
      andThen (processDeclsBlock tool fuel ⟨after, g⟩) fun g => mainLoop tool fuel (outputBody ++ before) g := by
  rw [First] at h
  rw [mainLoop]
  simp only [h, if_true]

theorem Doc.yields {doc : Doc} (hdoc : doc.WellFormed) (g : Globals) (outputBody : Text) :
    Yields (fun fuel => mainLoop tool fuel outputBody ⟨doc.render, g⟩) (fun r => (outputBody ++ r.1, r.2))
      (doc.expand tool g) := by
  induction doc generalizing g outputBody with
  | text t =>
      apply Yields.succ (mainLoop_text hdoc)
      exact settles_const _
  | block before b after ih =>
      obtain ⟨hfirst, hb, hafter⟩ := hdoc
      apply Yields.succ (mainLoop_block hfirst)
      refine Yields.andThen (b.yields tool after.render hb g) fun r _ => ?_
      have hrest := ih hafter r.2 (outputBody ++ before ++ r.1)
      apply Yields.map
      simpa only [List.append_assoc, leaving] using hrest
  | decls before d after ih =>
      obtain ⟨hfirst, hd, hafter⟩ := hdoc
      apply Yields.succ (mainLoop_decls hfirst)
      refine Yields.andThen (Decls.yields hd g) fun g' _ => ?_
      have hrest := ih hafter g' (outputBody ++ before)
      apply Yields.map
      simpa only [List.append_assoc] using hrest

end

/-- Every text is the text of a document; and the preprocessor ends on it with what
the document is to be expanded to, or with the error that this comes to, exactly
if it is not that something in the text is unfinished. -/
theorem preprocess_iff (tool : Tool) : (∀ text : Text, ∃ doc : Doc, doc.WellFormed ∧ doc.render = text) ∧
    ∀ doc : Doc, doc.WellFormed →
      ((∃ x, Settles (fun fuel => preprocess tool fuel doc.render) x ∧ doc.output tool = x.mapError Fault.raised) ↔
        doc.output tool ≠ .error .unfinished) := by
  refine ⟨doc_read, fun doc hdoc => Yields.settles_iff ?_⟩
  refine Yields.andThen (Doc.yields hdoc initialGlobals []) fun r _ => ?_
  exact settles_const _

def noTables : Tool := ⟨[], fun _ => none⟩

theorem preprocess_text :
    (∃ x, Settles (fun fuel => preprocess noTables fuel ['a']) x ∧ .ok (initialGlobals.outputHeader ++ ['a']) = x.mapError Fault.raised) ↔
      (.ok (initialGlobals.outputHeader ++ ['a']) : Except (Fault Exit) Text) ≠ .error .unfinished :=
  (preprocess_iff noTables).2 (.text ['a']) rfl

theorem processArguments_unclosed {rest : Text} {g : Globals} (h : close '(' ')' 0 rest = none) (fuel : Nat) :
    processArguments fuel ⟨'(' :: rest, g⟩ = none := by
  have hloop : argumentsLoop ('(' :: rest) fuel 2 1 = none := argumentsLoop_unclosed (by decide) h
  have hopen : ('(' :: rest).take 1 = ['('] := rfl
  simp only [processArguments, hopen, ne_eq, not_true_eq_false, if_false, hloop]

/-- An argument without an end is looked for one without an end; a block or
declarations without an end are dropped. -/
theorem unfinished_not_reported :
    (¬ ∃ fuel x, preprocess noTables fuel "EMILUA_GPERF_BEGIN(".toList = some x) ∧
    (∃ fuel, preprocess noTables fuel "a EMILUA_GPERF_BEGIN(k) EMILUA_GPERF_PARAM(p) b".toList =
      some (.ok (initialGlobals.outputHeader ++ "a  b".toList))) ∧
    ∃ fuel, preprocess noTables fuel "a EMILUA_GPERF_DECLS_BEGIN(d) int i;".toList =
      some (.ok (initialGlobals.outputHeader ++ "a ".toList)) := by
  refine ⟨?_, ⟨40, by decide +kernel⟩, ⟨40, by decide +kernel⟩⟩
  rintro ⟨fuel, x, h⟩
  have hfirst : First topMacros [] .blockBegin ['('] := by
    rw [First]
    decide
  cases fuel with
  | zero => cases h
  | succ fuel =>
      have hinput : "EMILUA_GPERF_BEGIN(".toList = [] ++ (Macro.blockBegin.word ++ ['(']) := by decide
      rw [preprocess, hinput, mainLoop_block hfirst] at h
      cases fuel with
      | zero => cases h
      | succ fuel =>
          rw [processGperfBlock, processArguments_unclosed rfl] at h
          cases h

end Emilua.Gperf
