import Emilua.Gperf.Preprocessor

/-!
What a text is to the preprocessor: text with blocks in it, whose values are such
texts again, up to where reading cannot go on. Every text is read so, and a
document says what its text is to be expanded to.
-/
namespace Emilua.Gperf
open Fuel Scan

/-- Arguments that cannot be read. -/
inductive Stop where
  | noParens (rest : Text)
  | unclosed (rest : Text)

mutual

/-- Text with blocks in it. -/
inductive Value where
  | text (t : Text)
  | block (before : Text) (b : Block) (after : Value)

/-- What stands behind `EMILUA_GPERF_BEGIN`. -/
inductive Block where
  | stop (s : Stop)
  | named (symbol : Text) (body : Body)

/-- The macros of a block; `skipped` is what stands before one, which is dropped. -/
inductive Body where
  | unfinished (rest : Text)
  | misplaced (skipped rest : Text)
  | stop (skipped : Text) (found : Macro) (s : Stop)
  | finish (skipped symbol : Text)
  | param (skipped arg : Text) (body : Body)
  | ppguard (skipped arg : Text) (body : Body)
  | defaultValue (skipped : Text) (value : Value) (body : Body)
  /-- `front` is what stands up to the first comma. -/
  | pair (skipped front : Text) (value : Value) (body : Body)

end

/-- What stands behind `EMILUA_GPERF_DECLS_BEGIN`. -/
inductive Decls where
  | stop (s : Stop)
  | unfinished (symbol rest : Text)
  | finish (symbol : Text) (value : Value)

inductive Doc where
  | text (t : Text)
  | block (before : Text) (b : Block) (after : Doc)
  | decls (before : Text) (d : Decls) (after : Doc)

/-! The text of a document. -/

def parens (arg : Text) : Text := '(' :: (arg ++ [')'])

def Stop.render : Stop → Text
  | .noParens rest => rest
  | .unclosed rest => '(' :: rest

mutual

def Value.render : Value → Text
  | .text t => t
  | .block before b after => before ++ (Macro.blockBegin.word ++ (b.render ++ after.render))

def Block.render : Block → Text
  | .stop s => s.render
  | .named symbol body => parens symbol ++ body.render

def Body.render : Body → Text
  | .unfinished rest => rest
  | .misplaced skipped rest => skipped ++ (Macro.blockBegin.word ++ rest)
  | .stop skipped found s => skipped ++ (found.word ++ s.render)
  | .finish skipped symbol => skipped ++ (Macro.blockEnd.word ++ parens symbol)
  | .param skipped arg body => skipped ++ (Macro.param.word ++ (parens arg ++ body.render))
  | .ppguard skipped arg body => skipped ++ (Macro.ppguard.word ++ (parens arg ++ body.render))
  | .defaultValue skipped value body =>
      skipped ++ (Macro.defaultValue.word ++ (parens value.render ++ body.render))
  | .pair skipped front value body =>
      skipped ++ (Macro.pair.word ++ (parens (front ++ value.render) ++ body.render))

end

def Decls.render : Decls → Text
  | .stop s => s.render
  | .unfinished symbol rest => parens symbol ++ rest
  | .finish symbol value => parens symbol ++ (value.render ++ declsEnd symbol)

def Doc.render : Doc → Text
  | .text t => t
  | .block before b after => before ++ (Macro.blockBegin.word ++ (b.render ++ after.render))
  | .decls before d after => before ++ (Macro.declsBegin.word ++ (d.render ++ after.render))

/-! The reading of a text is the one whose macros are the first ones that stand
there, whose arguments end at the matching parenthesis, and that leaves nothing
behind where it stops. `tail` is what follows. -/

/-- The macro is the first of those looked for. -/
def First (macros : List Macro) (before : Text) (found : Macro) (after : Text) : Prop :=
  firstMatch Macro.word macros (before ++ (found.word ++ after)) = some (before, found, after)

abbrev BalancedArg (arg : Text) : Prop := Balanced '(' ')' arg

def Stop.WellFormed : Stop → Prop
  | .noParens rest => rest.take 1 ≠ ['(']
  | .unclosed rest => close '(' ')' 0 rest = none

mutual

def Value.WellFormed : Value → Prop
  | .text t => firstMatch Macro.word [.blockBegin] t = none
  | .block before b after =>
      First [.blockBegin] before .blockBegin (b.render ++ after.render) ∧ b.WellFormed after.render ∧ after.WellFormed

def Block.WellFormed : Block → Text → Prop
  | .stop s, tail => s.WellFormed ∧ tail = []
  | .named symbol body, tail => BalancedArg symbol ∧ body.WellFormed tail

def Body.WellFormed : Body → Text → Prop
  | .unfinished rest, tail => firstMatch Macro.word blockMacros rest = none ∧ tail = []
  | .misplaced skipped rest, tail => First blockMacros skipped .blockBegin rest ∧ tail = []
  | .stop skipped found s, tail =>
      First blockMacros skipped found s.render ∧ found ≠ .blockBegin ∧ s.WellFormed ∧ tail = []
  | .finish skipped symbol, tail => First blockMacros skipped .blockEnd (parens symbol ++ tail) ∧ BalancedArg symbol
  | .param skipped arg body, tail =>
      First blockMacros skipped .param (parens arg ++ (body.render ++ tail)) ∧ BalancedArg arg ∧ body.WellFormed tail
  | .ppguard skipped arg body, tail =>
      First blockMacros skipped .ppguard (parens arg ++ (body.render ++ tail)) ∧ BalancedArg arg ∧ body.WellFormed tail
  | .defaultValue skipped value body, tail =>
      First blockMacros skipped .defaultValue (parens value.render ++ (body.render ++ tail)) ∧
        BalancedArg value.render ∧ value.WellFormed ∧ body.WellFormed tail
  | .pair skipped front value body, tail =>
      First blockMacros skipped .pair (parens (front ++ value.render) ++ (body.render ++ tail)) ∧
        BalancedArg (front ++ value.render) ∧ splitComma (front ++ value.render) = (front, value.render) ∧
        value.WellFormed ∧ body.WellFormed tail

end

/-- The end of the declarations stands in the text, first before `tail`. -/
def FirstEnd (symbol before tail : Text) : Prop :=
  firstMatch (fun _ : Unit => declsEnd symbol) [()] (before ++ (declsEnd symbol ++ tail)) = some (before, (), tail)

def Decls.WellFormed : Decls → Text → Prop
  | .stop s, tail => s.WellFormed ∧ tail = []
  | .unfinished symbol rest, tail =>
      BalancedArg symbol ∧ firstMatch (fun _ : Unit => declsEnd symbol) [()] rest = none ∧ tail = []
  | .finish symbol value, tail => BalancedArg symbol ∧ FirstEnd symbol value.render tail ∧ value.WellFormed

def Doc.WellFormed : Doc → Prop
  | .text t => firstMatch Macro.word topMacros t = none
  | .block before b after =>
      First topMacros before .blockBegin (b.render ++ after.render) ∧ b.WellFormed after.render ∧ after.WellFormed
  | .decls before d after =>
      First topMacros before .declsBegin (d.render ++ after.render) ∧ d.WellFormed after.render ∧ after.WellFormed

/-! What the document is to be expanded to: the text around the blocks in its
order, with each block's expansion where it stood. -/

def Stop.fault : Stop → Fault Exit
  | .noParens rest => .raised (.openParensExpected (rest.take 1))
  | .unclosed _ => .unfinished

mutual

def Value.expand (tool : Tool) : Value → Globals → Except (Fault Exit) (Text × Globals)
  | .text t, g => .ok (t, g)
  | .block before b after, g =>
      b.expand tool g >>= fun r => after.expand tool r.2 >>= fun r' => .ok (before ++ (r.1 ++ r'.1), r'.2)

def Block.expand (tool : Tool) : Block → Globals → Except (Fault Exit) (Text × Globals)
  | .stop s, _ => .error s.fault
  | .named symbol body, g =>
      if isName symbol then body.expand tool ⟨g.next, symbol, [], [], [], []⟩ { g with next := g.next + 1 }
      else .error (.raised (.badName symbol))

def Body.expand (tool : Tool) : Body → Context → Globals → Except (Fault Exit) (Text × Globals)
  | .unfinished _, _, _ => .error .unfinished
  | .misplaced _ _, _, _ => .error (.raised .blockCannotAppearHere)
  | .stop _ _ s, _, _ => .error s.fault
  | .finish _ symbol, context, g =>
      if symbol ≠ context.symbol then .error (.raised (.mismatchedBlocks context.symbol))
      else (gperf tool context g).mapError .raised
  | .param _ arg body, context, g => body.expand tool { context with param := arg } g
  | .ppguard _ arg body, context, g => body.expand tool { context with ppguard := arg } g
  | .defaultValue _ value body, context, g =>
      value.expand tool g >>= fun r => body.expand tool { context with defaultValue := r.1 } r.2
  | .pair _ front value body, context, g =>
      let key := pairKey (front ++ value.render)
      if (context.pairs.map Prod.fst).contains key then .error (.raised (.duplicateValue key))
      else value.expand tool g >>= fun r =>
        body.expand tool { context with pairs := context.pairs ++ [(key, r.2.nextValue, escapeAmpersands r.1)] }
          { r.2 with nextValue := r.2.nextValue + 1 }

end

def Decls.expand (tool : Tool) : Decls → Globals → Except (Fault Exit) Globals
  | .stop s, _ => .error s.fault
  | .unfinished _ _, _ => .error .unfinished
  | .finish _ value, g =>
      value.expand tool g >>= fun r => .ok { r.2 with outputHeader := declsHeader r.2.outputHeader r.1 }

def Doc.expand (tool : Tool) : Doc → Globals → Except (Fault Exit) (Text × Globals)
  | .text t, g => .ok (t, g)
  | .block before b after, g =>
      b.expand tool g >>= fun r => after.expand tool r.2 >>= fun r' => .ok (before ++ (r.1 ++ r'.1), r'.2)
  | .decls before d after, g =>
      d.expand tool g >>= fun g => after.expand tool g >>= fun r => .ok (before ++ r.1, r.2)

def Doc.output (tool : Tool) (doc : Doc) : Except (Fault Exit) Text :=
  doc.expand tool initialGlobals >>= fun r => .ok (r.2.outputHeader ++ r.1)

/-! Every text has a reading. -/

theorem Macro.word_length (m : Macro) : 0 < m.word.length := by
  cases m <;> decide

theorem first_of_match {macros : List Macro} {s before after : Text} {found : Macro}
    (h : firstMatch Macro.word macros s = some (before, found, after)) :
    First macros before found after ∧ found ∈ macros ∧ before ++ (found.word ++ after) = s ∧ after.length < s.length := by
  obtain ⟨hs, hmem⟩ := firstMatch_some h
  refine ⟨by rwa [First, ← hs], hmem, hs.symm, ?_⟩
  rw [hs, List.length_append, List.length_append]
  have hpos := found.word_length
  omega

/-- Arguments cannot be read, or end at the matching parenthesis. -/
theorem arguments_read (s : Text) : (∃ stop : Stop, stop.WellFormed ∧ stop.render = s) ∨
    ∃ arg rest, BalancedArg arg ∧ parens arg ++ rest = s ∧ arg.length < s.length ∧ rest.length < s.length := by
  by_cases hopen : s.take 1 = ['(']
  · obtain ⟨s, rfl⟩ : ∃ s', s = '(' :: s' := by
      cases s with
      | nil => cases hopen
      | cons c s => exact ⟨s, by rw [(List.cons.inj hopen).1]⟩
    cases hclose : close '(' ')' 0 s with
    | none => exact .inl ⟨.unclosed s, hclose, rfl⟩
    | some found =>
        obtain ⟨arg, rest⟩ := found
        obtain ⟨rfl, hbalanced⟩ := (close_some_iff (by decide)).mp hclose
        refine .inr ⟨arg, rest, hbalanced, by simp [parens], ?_, ?_⟩
        · simp only [List.length_cons, List.length_append]
          omega
        · simp only [List.length_cons, List.length_append]
          omega
  · exact .inl ⟨.noParens s, hopen, rfl⟩

structure Readable (s : Text) : Prop where
  value : ∃ v : Value, v.WellFormed ∧ v.render = s
  block : ∃ (b : Block) (tail : Text), b.WellFormed tail ∧ b.render ++ tail = s
  body : ∃ (b : Body) (tail : Text), b.WellFormed tail ∧ b.render ++ tail = s

section
variable {s : Text} (ih : ∀ t : Text, t.length < s.length → Readable t)
include ih

theorem value_read : ∃ v : Value, v.WellFormed ∧ v.render = s := by
  cases hmatch : firstMatch Macro.word [.blockBegin] s with
  | none => exact ⟨.text s, hmatch, rfl⟩
  | some found =>
      obtain ⟨before, m, after⟩ := found
      obtain ⟨hfirst, hmem, rfl, hlength⟩ := first_of_match hmatch
      obtain rfl := List.mem_singleton.mp hmem
      obtain ⟨b, tail, hb, rfl⟩ := (ih after hlength).block
      obtain ⟨v, hv, rfl⟩ := (ih tail (by rw [List.length_append] at hlength; omega)).value
      exact ⟨.block before b v, ⟨hfirst, hb, hv⟩, rfl⟩

theorem block_read : ∃ (b : Block) (tail : Text), b.WellFormed tail ∧ b.render ++ tail = s := by
  rcases arguments_read s with ⟨stop, hstop, hs⟩ | ⟨symbol, rest, hsymbol, hs, -, hlength⟩
  · exact ⟨.stop stop, [], ⟨hstop, rfl⟩, by rw [List.append_nil]; exact hs⟩
  · obtain ⟨body, tail, hbody, rfl⟩ := (ih rest hlength).body
    exact ⟨.named symbol body, tail, ⟨hsymbol, hbody⟩, by rw [← hs, Block.render, List.append_assoc]⟩

omit ih in
theorem splitComma_append (s : Text) : (splitComma s).1 ++ (splitComma s).2 = s := by
  have hcomma (s : Text) (h : ',' ∈ s) : s.takeWhile (· ≠ ',') ++ (',' :: (s.dropWhile (· ≠ ',')).drop 1) = s := by
    induction s with
    | nil => cases h
    | cons c s ih =>
        by_cases hc : c = ','
        · simp [hc]
        · simpa [hc] using ih ((List.mem_cons.mp h).resolve_left (Ne.symm hc))
  rw [splitComma]
  split
  · rename_i hmem
    rw [List.append_assoc]
    exact hcomma s hmem
  · rfl

theorem body_read : ∃ (b : Body) (tail : Text), b.WellFormed tail ∧ b.render ++ tail = s := by
  cases hmatch : firstMatch Macro.word blockMacros s with
  | none => exact ⟨.unfinished s, [], ⟨hmatch, rfl⟩, List.append_nil s⟩
  | some found =>
      obtain ⟨skipped, m, after⟩ := found
      obtain ⟨hfirst, hmem, rfl, hlength⟩ := first_of_match hmatch
      by_cases hbegin : m = .blockBegin
      · subst hbegin
        exact ⟨.misplaced skipped after, [], ⟨hfirst, rfl⟩, List.append_nil _⟩
      rcases arguments_read after with ⟨stop, hstop, rfl⟩ | ⟨arg, rest, harg, rfl, harglength, hrestlength⟩
      · exact ⟨.stop skipped m stop, [], ⟨hfirst, hbegin, hstop, rfl⟩, List.append_nil _⟩
      obtain ⟨body, tail, hbody, hrest⟩ := (ih rest (hrestlength.trans hlength)).body
      have hvalue := (ih arg (harglength.trans hlength)).value
      cases m with
      | blockBegin => exact absurd rfl hbegin
      | declsBegin => exact absurd hmem (by decide)
      | blockEnd => exact ⟨.finish skipped arg, rest, ⟨hfirst, harg⟩, by simp [Body.render]⟩
      | param =>
          subst hrest
          exact ⟨.param skipped arg body, tail, ⟨hfirst, harg, hbody⟩, by simp [Body.render]⟩
      | ppguard =>
          subst hrest
          exact ⟨.ppguard skipped arg body, tail, ⟨hfirst, harg, hbody⟩, by simp [Body.render]⟩
      | defaultValue =>
          subst hrest
          obtain ⟨v, hv, rfl⟩ := hvalue
          exact ⟨.defaultValue skipped v body, tail, ⟨hfirst, harg, hv, hbody⟩, by simp [Body.render]⟩
      | pair =>
          subst hrest
          have hsplit := splitComma_append arg
          have hle : (splitComma arg).2.length ≤ arg.length := by
            conv_rhs => rw [← hsplit]
            rw [List.length_append]
            omega
          obtain ⟨v, hv, hrender⟩ := (ih (splitComma arg).2 (by omega)).value
          rw [← hrender] at hsplit
          rw [← hsplit] at hfirst harg
          refine ⟨.pair skipped (splitComma arg).1 v body, tail, ⟨hfirst, harg, ?_, hv, hbody⟩, by simp [Body.render, hsplit]⟩
          rw [hsplit, hrender]

end

theorem readable (s : Text) : Readable s := by
  induction h : s.length using Nat.strong_induction_on generalizing s with
  | _ n ih =>
      subst h
      have hshorter (t : Text) (ht : t.length < s.length) : Readable t := ih _ ht t rfl
      exact ⟨value_read hshorter, block_read hshorter, body_read hshorter⟩

theorem decls_read (s : Text) : ∃ (d : Decls) (tail : Text), d.WellFormed tail ∧ d.render ++ tail = s := by
  rcases arguments_read s with ⟨stop, hstop, hs⟩ | ⟨symbol, rest, hsymbol, rfl, -, -⟩
  · exact ⟨.stop stop, [], ⟨hstop, rfl⟩, by rw [List.append_nil]; exact hs⟩
  · cases hmatch : firstMatch (fun _ : Unit => declsEnd symbol) [()] rest with
    | none => exact ⟨.unfinished symbol rest, [], ⟨hsymbol, hmatch, rfl⟩, List.append_nil _⟩
    | some found =>
        obtain ⟨before, _, tail⟩ := found
        obtain ⟨rfl, -⟩ := firstMatch_some hmatch
        obtain ⟨v, hv, rfl⟩ := (readable before).value
        exact ⟨.finish symbol v, tail, ⟨hsymbol, hmatch, hv⟩, by simp [Decls.render]⟩

/-- Every text is the text of a document. -/
theorem doc_read (s : Text) : ∃ doc : Doc, doc.WellFormed ∧ doc.render = s := by
  induction h : s.length using Nat.strong_induction_on generalizing s with
  | _ n ih =>
      subst h
      cases hmatch : firstMatch Macro.word topMacros s with
      | none => exact ⟨.text s, hmatch, rfl⟩
      | some found =>
          obtain ⟨before, m, after⟩ := found
          obtain ⟨hfirst, hmem, rfl, hlength⟩ := first_of_match hmatch
          have hdoc {tail : Text} {front : Text} (happend : front ++ tail = after) :
              ∃ doc : Doc, doc.WellFormed ∧ doc.render = tail := by
            have hle := congrArg List.length happend
            rw [List.length_append] at hle
            exact ih tail.length (by omega) tail rfl
          have hcases : m = .blockBegin ∨ m = .declsBegin := by simpa [topMacros] using hmem
          rcases hcases with rfl | rfl
          · obtain ⟨b, tail, hb, happend⟩ := (readable after).block
            obtain ⟨doc, hwell, rfl⟩ := hdoc happend
            subst happend
            exact ⟨.block before b doc, ⟨hfirst, hb, hwell⟩, rfl⟩
          · obtain ⟨d, tail, hd, happend⟩ := decls_read after
            obtain ⟨doc, hwell, rfl⟩ := hdoc happend
            subst happend
            exact ⟨.decls before d doc, ⟨hfirst, hd, hwell⟩, rfl⟩

end Emilua.Gperf
