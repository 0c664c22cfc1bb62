import Emilua.Ipc.Message

/-!
The meaning of the wire format, independent of the code that writes or reads
it. `render` lays a message out as the sender is meant to; `parse` says which
message, if any, a received byte string spells. The parser looks at nothing but
the bytes it is given, so a reader that agrees with it cannot depend on what
lies behind them in its buffer.

Descriptors travel beside the bytes: a message only says at which member the
next one belongs.
-/
namespace Emilua.Ipc
open Wire

inductive Member where
  | boolean (b : Bool)
  | number (bits : UInt64)
  | string (s : Bytes)
  | fileDescriptor
  | actorAddress
deriving DecidableEq, Repr

/-- A sole value, or the keyed members of a table in the order they are sent. -/
inductive Contents where
  | flat (m : Member)
  | table (es : List (Bytes × Member))
deriving DecidableEq, Repr

namespace Member

def word : Member → UInt64
  | .boolean true => Kind.booleanTrue.word
  | .boolean false => Kind.booleanFalse.word
  | .number bits => bits
  | .string _ => Kind.string.word
  | .fileDescriptor => Kind.fileDescriptor.word
  | .actorAddress => Kind.actorAddress.word

/-- The strings a member adds to the pool. -/
def texts : Member → List Bytes
  | .string s => [s]
  | _ => []

/-- Numbers never carry a signalling NaN and strings fit their length byte. -/
def Valid : Member → Prop
  | .number bits => isSnan bits = false
  | .string s => s.length ≤ 255
  | _ => True

end Member

def entryTexts (e : Bytes × Member) : List Bytes := e.1 :: e.2.texts

def Contents.Valid (c : Config) : Contents → Prop
  | .flat m => m.Valid
  | .table es =>
      es ≠ [] ∧ es.length ≤ c.maxMembers ∧ ∀ e ∈ es, e.1.length ≤ 255 ∧ e.2.Valid

def parseMember (w : UInt64) (pool : Bytes) : Option (Member × Bytes) :=
  if isSnan w = false then some (.number w, pool)
  else
    match kindOf w with
    | some .booleanTrue => some (.boolean true, pool)
    | some .booleanFalse => some (.boolean false, pool)
    | some .string => (takeFrame pool).map fun r => (.string r.1, r.2)
    | some .fileDescriptor => some (.fileDescriptor, pool)
    | some .actorAddress => some (.actorAddress, pool)
    | some .nil | none => none

def parseEntries (wire : Bytes) : Nat → Nat → Bytes → Option (List (Bytes × Member))
  | 0, _, _ => some []
  | n + 1, nf, pool =>
      match wordAt wire nf with
      | none => none
      | some w =>
          if w = Kind.nil.word then some []
          else
            match takeFrame pool with
            | none => none
            | some (key, pool) =>
                match parseMember w pool with
                | none => none
                | some (m, pool) =>
                    (parseEntries wire n (nf + 1) pool).map fun es => (key, m) :: es

def parse (c : Config) (wire : Bytes) : Option Contents :=
  match wordAt wire 0, wordAt wire 1 with
  | some w₀, some w₁ =>
      if w₀ = Kind.nil.word then
        (parseMember w₁ (wire.drop c.membersSize)).map fun r => .flat r.1
      else if wire.length < c.membersSize then none
      else (parseEntries wire c.maxMembers 0 (wire.drop c.membersSize)).map .table
  | _, _ => none

/-! The descriptors that came with a message go to its members in order. -/

/-- What a member is once it has taken the descriptor it needs. -/
def Member.fill : Member → List Int → Option (Leaf × List Int)
  | .boolean b, fds => some (.boolean b, fds)
  | .number bits, fds => some (.number bits, fds)
  | .string s, fds => some (.string s, fds)
  | .fileDescriptor, fd :: fds => some (.fileDescriptor fd, fds)
  | .actorAddress, fd :: fds => some (.ipcActorChan fd, fds)
  | .fileDescriptor, [] | .actorAddress, [] => none

def fillEntries : List (Bytes × Member) → List Int → Option (List (Bytes × Leaf))
  | [], _ => some []
  | (key, m) :: es, fds =>
      (m.fill fds).bind fun r => (fillEntries es r.2).map fun ls => (key, r.1) :: ls

inductive Message where
  | flat (l : Leaf)
  | table (es : List (Bytes × Leaf))

def Member.isDescriptor : Member → Bool
  | .fileDescriptor | .actorAddress => true
  | _ => false

/-- A sole descriptor must come alone; a table may leave descriptors over. -/
def Contents.fill : Contents → List Int → Option Message
  | .flat m, fds =>
      if m.isDescriptor = true ∧ fds.length ≠ 1 then none
      else (m.fill fds).map fun r => .flat r.1
  | .table es, fds => (fillEntries es fds).map .table

/-- The member array of a message: the tags and numbers of its members, then
the filler the sender uses for that form. -/
def Contents.words (c : Config) : Contents → List UInt64
  | .flat (.string _) =>
      Kind.nil.word :: Kind.string.word :: List.replicate (c.maxMembers - 2) 0
  | .flat m => [Kind.nil.word, m.word]
  | .table es =>
      es.map (fun e => e.2.word) ++ List.replicate (c.maxMembers - es.length) Kind.nil.word

def Contents.texts : Contents → List Bytes
  | .flat m => m.texts
  | .table es => es.flatMap entryTexts

def render (c : Config) (cts : Contents) : Bytes :=
  wordsBytes (cts.words c) ++ frames cts.texts

theorem Member.word_ne_nil {m : Member} (h : m.Valid) : m.word ≠ Kind.nil.word := by
  cases m with
  | boolean b => cases b <;> decide
  | number bits => exact ne_word_of_not_snan h _
  | string _ | fileDescriptor | actorAddress => exact fun h => by simpa using word_injective h

theorem parseMember_word {m : Member} (h : m.Valid) (rest : Bytes) :
    parseMember m.word (frames m.texts ++ rest) = some (m, rest) := by
  cases m with
  | boolean b => cases b <;> simp [parseMember, Member.word, Member.texts]
  | number bits =>
      have hs : isSnan bits = false := h
      simp [parseMember, Member.word, Member.texts, hs]
  | string s =>
      have hs : s.length ≤ 255 := h
      simp [parseMember, Member.word, Member.texts, takeFrame_frame_append s rest hs]
  | fileDescriptor | actorAddress => simp [parseMember, Member.word, Member.texts]

/-- Parsing from any member on: the words behind the entries are either
exhausted or start with the terminator. -/
theorem parseEntries_render (wire : Bytes) (es : List (Bytes × Member)) (n nf : Nat)
    (hlen : es.length ≤ n)
    (hword : ∀ i (hi : i < es.length), wordAt wire (nf + i) = some (es.get ⟨i, hi⟩).2.word)
    (hstop : es.length < n → wordAt wire (nf + es.length) = some Kind.nil.word)
    (hvalid : ∀ e ∈ es, e.1.length ≤ 255 ∧ e.2.Valid) :
    parseEntries wire n nf (frames (es.flatMap entryTexts)) = some es := by
  induction es generalizing n nf with
  | nil =>
      cases n with
      | zero => rfl
      | succ n => simp [parseEntries, show wordAt wire nf = some Kind.nil.word from hstop (by simp)]
  | cons e es ih =>
      cases n with
      | zero => simp at hlen
      | succ n =>
          obtain ⟨hkey, hm⟩ := hvalid e (by simp)
          have h0 : wordAt wire nf = some e.2.word := by simpa using hword 0 (by simp)
          have hpool : frames ((e :: es).flatMap entryTexts) =
              frame e.1 ++ (frames e.2.texts ++ frames (es.flatMap entryTexts)) := by
            simp [entryTexts]
          have hrest : parseEntries wire n (nf + 1) (frames (es.flatMap entryTexts)) = some es := by
            apply ih
            · simpa using hlen
            · intro i hi
              have hnext := hword (i + 1) (by simpa using hi)
              rw [show nf + (i + 1) = nf + 1 + i by omega] at hnext
              exact hnext
            · intro hlt
              have hend := hstop (by simpa using hlt)
              rw [List.length_cons, show nf + (es.length + 1) = nf + 1 + es.length by omega] at hend
              exact hend
            · exact fun e' he' => hvalid e' (List.mem_cons_of_mem _ he')
          rw [hpool, parseEntries, h0]
          simp only [Member.word_ne_nil hm, if_false, takeFrame_frame_append _ _ hkey,
            parseMember_word hm, hrest, Option.map_some]

theorem Contents.words_length_table (c : Config) (es : List (Bytes × Member))
    (h : es.length ≤ c.maxMembers) :
    ((Contents.table es).words c).length = c.maxMembers := by
  simp only [Contents.words, List.length_append, List.length_map, List.length_replicate]
  omega

private theorem parse_render_table (c : Config) (es : List (Bytes × Member))
    (h : (Contents.table es).Valid c) :
    parse c (render c (.table es)) = some (.table es) := by
  obtain ⟨hne, hlen, hvalid⟩ := h
  have hwords := Contents.words_length_table c es hlen
  have hpos : 0 < es.length := List.length_pos_of_ne_nil hne
  have htwo := c.two_lt
  have hwordAt (i : Nat) (hi : i < c.maxMembers) :
      wordAt (render c (.table es)) i = ((Contents.table es).words c)[i]? :=
    wordAt_wordsBytes_append _ _ (by omega)
  have hmem (i : Nat) (hi : i < es.length) :
      wordAt (render c (.table es)) i = some (es.get ⟨i, hi⟩).2.word := by
    rw [hwordAt i (by omega), Contents.words, List.getElem?_append_left (by simpa using hi)]
    simp [hi]
  have hnil : es.length < c.maxMembers →
      wordAt (render c (.table es)) es.length = some Kind.nil.word := by
    intro hlt
    rw [hwordAt _ hlt, Contents.words, List.getElem?_append_right (by simp)]
    simp [hlt]
  have hsize : (render c (.table es)).drop c.membersSize = frames (es.flatMap entryTexts) := by
    rw [render, List.drop_left' (by simp [hwords, Config.membersSize])]
    rfl
  have hlong : ¬ (render c (.table es)).length < c.membersSize := by
    simp [render, hwords, Config.membersSize]
  have h0 := hmem 0 hpos
  have hfirst : (es.get ⟨0, hpos⟩).2.word ≠ Kind.nil.word :=
    Member.word_ne_nil (hvalid _ (es.get_mem _)).2
  obtain ⟨w₁, h1⟩ : ∃ w, wordAt (render c (.table es)) 1 = some w := by
    refine ⟨_, (hwordAt 1 (by omega)).trans (List.getElem?_eq_getElem (by omega))⟩
  have hentries := parseEntries_render (render c (.table es)) es c.maxMembers 0 hlen
    (by simpa using hmem) (by simpa using hnil) hvalid
  rw [parse, h0, h1]
  simp only [hfirst, if_false, hlong, hsize, hentries, Option.map_some]

private theorem parse_render_flat (c : Config) (m : Member) (h : m.Valid) :
    parse c (render c (.flat m)) = some (.flat m) := by
  have htwo := c.two_lt
  cases m with
  | string s =>
      have hw (i : Nat) (hi : i < c.maxMembers) : wordAt (render c (.flat (.string s))) i =
          ((Contents.flat (.string s)).words c)[i]? :=
        wordAt_wordsBytes_append _ _ (by simp [Contents.words]; omega)
      have hpool : (render c (.flat (.string s))).drop c.membersSize = frames [s] ++ [] := by
        rw [render, List.drop_left' (by simp [Contents.words, Config.membersSize]; omega)]
        simp [Contents.texts, Member.texts]
      rw [parse, hw 0 (by omega), hw 1 (by omega)]
      simp only [Contents.words, List.getElem?_cons_zero, List.getElem?_cons_succ, if_true, hpool]
      rw [show Kind.string.word = (Member.string s).word from rfl,
        show frames [s] = frames (Member.string s).texts from rfl, parseMember_word h, Option.map_some]
  | boolean _ | number _ | fileDescriptor | actorAddress =>
      have hrest (m : Member) (hm : m.texts = []) (pool : Bytes) (hv : m.Valid) :
          parseMember m.word pool = some (m, pool) := by
        simpa [hm] using parseMember_word hv pool
      rw [parse, render, wordAt_wordsBytes_append _ _ (by simp [Contents.words]),
        wordAt_wordsBytes_append _ _ (by simp [Contents.words])]
      simp only [Contents.words, List.getElem?_cons_zero, List.getElem?_cons_succ, if_true]
      rw [hrest _ rfl _ h, Option.map_some]

theorem parse_render (c : Config) (cts : Contents) (h : cts.Valid c) :
    parse c (render c cts) = some cts := by
  cases cts with
  | flat m => exact parse_render_flat c m h
  | table es => exact parse_render_table c es h

end Emilua.Ipc
