import Mathlib.Data.Finset.Sort
import Mathlib.Data.String.Basic
import Mathlib.Data.Finset.Card
import Emilua.Lib.Emplace
import Emilua.Lib.Split

/-!
Error categories that are read from RDF. What the store answers follows from
the set of statements but for the order, and for which one of several `get`
picks.
-/
namespace Emilua.Errors
open Emplace

inductive Node where
  | uri (s : String)
  | blank (s : String)
  | literal (s : String) (datatype language : Option String)
deriving DecidableEq, Repr

namespace Node

def str : Node → String
  | .uri s | .blank s | .literal s _ _ => s

def isUri : Node → Bool
  | .uri _ => true
  | _ => false

/-- A literal without a datatype. -/
def isText : Node → Bool
  | .literal _ none _ => true
  | _ => false

def language : Node → Option String
  | .literal _ _ lang => lang
  | _ => none

end Node

def moduleNode : Node := .uri "about:emilua-module"
def categorySchema : Node := .uri "https://schema.emilua.org/error_category/0/"
def typeProperty : Node := .uri "http://www.w3.org/1999/02/22-rdf-syntax-ns#type"
def errorProperty : Node := .uri "https://schema.emilua.org/error_category/0/#error"
def codeProperty : Node := .uri "https://schema.emilua.org/error_category/0/#code"
def aliasProperty : Node := .uri "https://schema.emilua.org/error_category/0/#alias"
def messageProperty : Node := .uri "https://schema.emilua.org/error_category/0/#message"
def genericErrorProperty : Node := .uri "https://schema.emilua.org/error_category/0/#generic_error"

/-- `Sord::Node::is_int`, `Sord::Node::to_int` and `posix_errno_code_from_name`. -/
structure Host where
  isInt : Node → Bool
  toInt : Node → Int32
  errnoOf : String → Int32

structure Statement where
  subject : Node
  predicate : Node
  object : Node
deriving DecidableEq

/-- `Sord::Model`: `find` enumerates the objects of all matching statements,
`get` gives one of them. -/
structure Model where
  numQuads : Nat
  find : Node → Node → List Node
  get : Node → Node → Option Node

/-- The answers of a store that has these statements. -/
structure Enumerates (S : Finset Statement) (model : Model) : Prop where
  numQuads : model.numQuads = S.card
  find_nodup : ∀ s p, (model.find s p).Nodup
  mem_find : ∀ s p o, o ∈ model.find s p ↔ ⟨s, p, o⟩ ∈ S
  get_mem : ∀ s p o, model.get s p = some o → ⟨s, p, o⟩ ∈ S
  get_none : ∀ s p, model.get s p = none → ∀ o, ⟨s, p, o⟩ ∉ S

inductive LoadError where
  | badRdf
  | badRdfModule
  | badRdfErrorCategory
deriving DecidableEq, Repr

structure RdfErrorCategory where
  messages : Finmap fun _ : Int32 => Finmap fun _ : String => String
  aliases : Finmap fun _ : String => Int32
  genericErrors : Finmap fun _ : Int32 => Int32
deriving DecidableEq

section
variable (host : Host) (model : Model)

def checkType (type : Option Node) : List Node → Except LoadError Unit
  | [] =>
      match type with
      | none => .error .badRdfModule
      | some type => if type ≠ categorySchema then .error .badRdfErrorCategory else .ok ()
  | o :: os => if type.isSome || !o.isUri then .error .badRdfModule else checkType (some o) os

/-- `pt-BR` is `pt_BR` in the name of a locale. -/
def underscored : List Char → List Char
  | [] => []
  | c :: cs => if c = '-' then '_' :: cs else c :: underscored cs

def localeOf (message : Node) : String :=
  match message.language with
  | none => ""
  | some lang => String.ofList (underscored lang.toList)

def aliasEntry (code : Int32) (name : Node) : Option (String × Int32) :=
  if name.isText then some (name.str, code) else none

def messageEntry (code : Int32) (message : Node) : Option ((Int32 × String) × String) :=
  if message.isText then some ((code, localeOf message), message.str) else none

def genericEntry (code : Int32) (pe : Node) : Option (Int32 × Int32) :=
  if pe.isText && host.errnoOf pe.str ≠ 0 then some (code, host.errnoOf pe.str) else none

/-- The code of an error. -/
def codeOf (code : Option Node) : Option Int32 :=
  match code with
  | none => none
  | some code => if host.isInt code then some (host.toInt code) else none

def loadError (category : RdfErrorCategory) (node : Node) : Option RdfErrorCategory := do
  let code ← codeOf host (model.get node codeProperty)
  let aliases ← finmap.allFrom (aliasEntry code) category.aliases (model.find node aliasProperty)
  let messages ← nested.allFrom (messageEntry code) category.messages (model.find node messageProperty)
  if nested.lookup messages (code, "") = none then none
  let genericErrors ← finmap.allFrom (genericEntry host code) category.genericErrors (model.find node genericErrorProperty)
  some ⟨messages, aliases, genericErrors⟩

/-- `load_rdf_error_category`, once the file is parsed. -/
def loadRdfErrorCategory : Except LoadError RdfErrorCategory := do
  if model.numQuads = 0 then .error .badRdf
  checkType none (model.find moduleNode typeProperty)
  match (model.find moduleNode errorProperty).foldlM (loadError host model) ⟨∅, ∅, ∅⟩ with
  | none => .error .badRdfErrorCategory
  | some category => .ok category

end

/-- The part of the name of a locale that is for messages. -/
def messagesLocale (curloc : List Char) : List Char :=
  match Split.firstAt "LC_MESSAGES=".toList curloc with
  | none => curloc
  | some i => curloc.drop (i + "LC_MESSAGES=".toList.length)

/-- `rdf_error_category::message`, where the locale has this name. `none` is the
exception of `at`, which nothing catches. -/
def RdfErrorCategory.message (category : RdfErrorCategory) (curloc : String) (value : Int32) : Option String :=
  match category.messages.lookup value with
  | none => some "Unknown"
  | some messages =>
      match (messages.keys.sort (· ≤ ·)).find? fun locale =>
          locale ≠ "" && locale.toList.isPrefixOf (messagesLocale curloc.toList) with
      | some locale => messages.lookup locale
      | none => messages.lookup ""

section
variable {host : Host} {model : Model} {S : Finset Statement} {category category' : RdfErrorCategory}

/-! The loop over the errors. -/

def Model.code (host : Host) (model : Model) (node : Node) : Option Int32 := codeOf host (model.get node codeProperty)

/-- Errors with what they have of a property. -/
def Model.pairs (model : Model) (p : Node) (nodes : List Node) : List (Node × Node) :=
  nodes.flatMap fun node => (model.find node p).map (node, ·)

/-- The entry of an error for an attribute, where errors have these codes. -/
def entryOf {κ β : Type} (entry : Int32 → Node → Option (κ × β)) (code : Node → Option Int32) (x : Node × Node) :
    Option (κ × β) := (code x.1).bind (entry · x.2)

/-- `node` has a message for code `c` without a language. -/
def Own (host : Host) (model : Model) (c : Int32) (node : Node) : Prop :=
  ∃ message ∈ model.find node messageProperty, ∃ t, entryOf messageEntry (model.code host) (node, message) = some ((c, ""), t)

/-- Each error has a default message when its turn comes. -/
def Defaulted (host : Host) (model : Model) : (Int32 → Prop) → List Node → Prop
  | _, [] => True
  | known, node :: nodes => (∀ c, model.code host node = some c → known c ∨ Own host model c node) ∧
      Defaulted host model (fun c => known c ∨ Own host model c node) nodes

theorem loadError_iff {node : Node} : loadError host model category node = some category' ↔
    ∃ c, model.code host node = some c ∧
      finmap.allFrom (aliasEntry c) category.aliases (model.find node aliasProperty) = some category'.aliases ∧
      nested.allFrom (messageEntry c) category.messages (model.find node messageProperty) = some category'.messages ∧
      (∃ t, nested.lookup category'.messages (c, "") = some t) ∧
      finmap.allFrom (genericEntry host c) category.genericErrors (model.find node genericErrorProperty) =
        some category'.genericErrors := by
  simp only [loadError, Option.bind_eq_bind, Option.bind_eq_some_iff, Model.code]
  constructor
  · rintro ⟨c, hcode, aliases, haliases, messages, hmessages, h⟩
    split at h
    · cases h
    · rename_i hdefault
      obtain ⟨generics, hgenerics, heq⟩ := Option.bind_eq_some_iff.mp h
      cases heq
      exact ⟨c, hcode, haliases, hmessages, Option.ne_none_iff_exists'.mp hdefault, hgenerics⟩
  · rintro ⟨c, hcode, haliases, hmessages, ⟨t, ht⟩, hgenerics⟩
    refine ⟨c, hcode, _, haliases, _, hmessages, ?_⟩
    rw [if_neg (by rw [ht]; nofun), Option.bind_eq_some_iff]
    exact ⟨_, hgenerics, rfl⟩

theorem allFrom_node {κ β M : Type} [DecidableEq κ] {o : Ops M κ β} {entry : Int32 → Node → Option (κ × β)}
    {node : Node} {c : Int32} {m : M} (hcode : model.code host node = some c) (xs : List Node) :
    o.allFrom (entryOf entry (model.code host)) m (xs.map (node, ·)) = o.allFrom (entry c) m xs := by
  rw [allFrom_map]
  congr 1
  funext x
  simp only [Function.comp_apply, entryOf, hcode, Option.bind_some]

theorem allFrom_pairs {κ β M : Type} [DecidableEq κ] {o : Ops M κ β} {entry : Int32 → Node → Option (κ × β)}
    {node : Node} {nodes : List Node} {c : Int32} {m : M} {p : Node} (hcode : model.code host node = some c) :
    o.allFrom (entryOf entry (model.code host)) m (model.pairs p (node :: nodes)) =
      (o.allFrom (entry c) m (model.find node p)).bind
        fun m' => o.allFrom (entryOf entry (model.code host)) m' (model.pairs p nodes) := by
  rw [Model.pairs, List.flatMap_cons, allFrom_append, allFrom_node hcode]
  rfl

/-- The defaults that are known after an error. -/
theorem lookup_default {node : Node} {c c' : Int32} {messages messages' : Finmap fun _ : Int32 => Finmap fun _ : String => String}
    (hcode : model.code host node = some c)
    (h : nested.allFrom (messageEntry c) messages (model.find node messageProperty) = some messages') :
    (∃ t, nested.lookup messages' (c', "") = some t) ↔
      (∃ t, nested.lookup messages (c', "") = some t) ∨ Own host model c' node := by
  simp only [Own, entryOf, hcode, Option.bind_some, allFrom_lookup h, exists_or]
  refine or_congr_right ⟨?_, ?_⟩
  · rintro ⟨t, message, hmem, hentry⟩
    exact ⟨message, hmem, t, hentry⟩
  · rintro ⟨message, hmem, t, hentry⟩
    exact ⟨t, message, hmem, hentry⟩

theorem loadErrors_iff {nodes : List Node} : nodes.foldlM (loadError host model) category = some category' ↔
    (∀ node ∈ nodes, ∃ c, model.code host node = some c) ∧
      finmap.allFrom (entryOf aliasEntry (model.code host)) category.aliases (model.pairs aliasProperty nodes) =
        some category'.aliases ∧
      nested.allFrom (entryOf messageEntry (model.code host)) category.messages (model.pairs messageProperty nodes) =
        some category'.messages ∧
      finmap.allFrom (entryOf (genericEntry host) (model.code host)) category.genericErrors
        (model.pairs genericErrorProperty nodes) = some category'.genericErrors ∧
      Defaulted host model (fun c => ∃ t, nested.lookup category.messages (c, "") = some t) nodes := by
  induction nodes generalizing category with
  | nil =>
      simp only [List.foldlM_nil, Model.pairs, List.flatMap_nil, Ops.allFrom, Defaulted, Option.some.injEq,
        Option.pure_def, and_true]
      constructor
      · rintro rfl
        exact ⟨(by simp), rfl, rfl, rfl⟩
      · rintro ⟨-, haliases, hmessages, hgenerics⟩
        cases category
        cases category'
        simp_all
  | cons node nodes ih =>
      rw [List.foldlM_cons, Option.bind_eq_bind, Option.bind_eq_some_iff]
      constructor
      · rintro ⟨category₁, hnode, hrest⟩
        obtain ⟨c, hcode, haliases, hmessages, hdefault, hgenerics⟩ := loadError_iff.mp hnode
        obtain ⟨hcodes, haliases', hmessages', hgenerics', hdefaults⟩ := ih.mp hrest
        refine ⟨List.forall_mem_cons.mpr ⟨⟨c, hcode⟩, hcodes⟩, ?_, ?_, ?_, ?_, ?_⟩
        · rw [allFrom_pairs hcode, haliases, Option.bind_some, haliases']
        · rw [allFrom_pairs hcode, hmessages, Option.bind_some, hmessages']
        · rw [allFrom_pairs hcode, hgenerics, Option.bind_some, hgenerics']
        · intro c' hc'
          obtain rfl : c = c' := Option.some.inj (hcode.symm.trans hc')
          exact (lookup_default hcode hmessages).mp hdefault
        · simpa only [lookup_default hcode hmessages] using hdefaults
      · rintro ⟨hcodes, haliases, hmessages, hgenerics, hdefault, hdefaults⟩
        obtain ⟨⟨c, hcode⟩, hcodes⟩ := List.forall_mem_cons.mp hcodes
        rw [allFrom_pairs hcode, Option.bind_eq_some_iff] at haliases hmessages hgenerics
        obtain ⟨aliases, haliases, haliases'⟩ := haliases
        obtain ⟨messages, hmessages, hmessages'⟩ := hmessages
        obtain ⟨generics, hgenerics, hgenerics'⟩ := hgenerics
        refine ⟨⟨messages, aliases, generics⟩, loadError_iff.mpr ⟨c, hcode, haliases, hmessages, ?_, hgenerics⟩,
          ih.mpr ⟨hcodes, haliases', hmessages', hgenerics', ?_⟩⟩
        · exact (lookup_default hcode hmessages).mpr (hdefault c hcode)
        · simpa only [lookup_default hcode hmessages] using hdefaults

/-! What the statements say. -/

def IsError (S : Finset Statement) (node : Node) : Prop := ⟨moduleNode, errorProperty, node⟩ ∈ S

/-- An error and something it has of a property. -/
def Attr (S : Finset Statement) (p : Node) (x : Node × Node) : Prop := IsError S x.1 ∧ ⟨x.1, p, x.2⟩ ∈ S

/-- All of a property are entries, with different keys. -/
def Distinct {κ β : Type} (S : Finset Statement) (p : Node) (entry : Node × Node → Option (κ × β)) : Prop :=
  (∀ x, Attr S p x → ∃ kv, entry x = some kv) ∧
    ∀ x y, Attr S p x → Attr S p y → (entry x).map Prod.fst = (entry y).map Prod.fst → x = y

/-- For each error one of the codes that it has. -/
def Chosen (host : Host) (S : Finset Statement) (code : Node → Option Int32) : Prop :=
  ∀ node, IsError S node → ∃ o, ⟨node, codeProperty, o⟩ ∈ S ∧ codeOf host (some o) = code node

/-- The statements pass all checks with these codes. -/
structure Passes (host : Host) (S : Finset Statement) (code : Node → Option Int32) : Prop where
  type : ∀ o, ⟨moduleNode, typeProperty, o⟩ ∈ S ↔ o = categorySchema
  codes : ∀ node, IsError S node → ∃ c, code node = some c
  aliases : Distinct S aliasProperty (entryOf aliasEntry code)
  messages : Distinct S messageProperty (entryOf messageEntry code)
  generics : Distinct S genericErrorProperty (entryOf (genericEntry host) code)
  defaults : ∀ node, IsError S node → ∀ c, code node = some c →
    ∃ x, Attr S messageProperty x ∧ ∃ t, entryOf messageEntry code x = some ((c, ""), t)

/-- An error has a message without a language. -/
def HasDefault (S : Finset Statement) (node : Node) : Prop :=
  ∃ message, ⟨node, messageProperty, message⟩ ∈ S ∧ message.isText = true ∧ localeOf message = ""

theorem checkType_some {type : Node} {os : List Node} :
    checkType (some type) os = .ok () ↔ os = [] ∧ type = categorySchema := by
  cases os with
  | nil =>
      rw [checkType]
      split
      · rename_i hne
        exact ⟨nofun, fun h => absurd h.2 hne⟩
      · rename_i heq
        exact ⟨fun _ => ⟨rfl, not_not.mp heq⟩, fun _ => rfl⟩
  | cons o os =>
      rw [checkType, if_pos (by rfl)]
      exact ⟨nofun, nofun⟩

theorem checkType_none {os : List Node} : checkType none os = .ok () ↔ os = [categorySchema] := by
  cases os with
  | nil => exact ⟨nofun, nofun⟩
  | cons o os =>
      rw [checkType]
      split
      · rename_i hbad
        refine ⟨nofun, fun h => ?_⟩
        obtain ⟨rfl, -⟩ := List.cons.inj h
        cases hbad
      · rw [checkType_some, List.cons.injEq]
        exact and_comm

namespace Enumerates

variable (h : Enumerates S model)
include h

theorem mem_pairs {p : Node} {x : Node × Node} :
    x ∈ model.pairs p (model.find moduleNode errorProperty) ↔ Attr S p x := by
  simp only [Model.pairs, List.mem_flatMap, List.mem_map, h.mem_find, Attr, IsError]
  constructor
  · rintro ⟨node, hnode, o, ho, rfl⟩
    exact ⟨hnode, ho⟩
  · rintro ⟨hnode, ho⟩
    exact ⟨x.1, hnode, x.2, ho, rfl⟩

theorem pairs_nodup (p : Node) : (model.pairs p (model.find moduleNode errorProperty)).Nodup := by
  refine List.nodup_flatMap.mpr ⟨fun node _ => ?_, ?_⟩
  · exact (h.find_nodup node p).map fun a b hab => congrArg Prod.snd hab
  · refine (h.find_nodup _ _).imp fun {a b} hne => ?_
    intro x hx hx'
    obtain ⟨o, -, rfl⟩ := List.mem_map.mp hx
    obtain ⟨o', -, heq⟩ := List.mem_map.mp hx'
    exact hne (congrArg Prod.fst heq).symm

theorem entries_iff {κ β M : Type} [DecidableEq κ] {o : Ops M κ β} {m : M} (hempty : ∀ k, o.lookup m k = none) {p : Node}
    (entry : Node × Node → Option (κ × β)) :
    (∃ m', o.allFrom entry m (model.pairs p (model.find moduleNode errorProperty)) = some m') ↔ Distinct S p entry := by
  rw [allFrom_empty_iff hempty (h.pairs_nodup p)]
  simp only [h.mem_pairs, Distinct]
  exact and_congr_right fun _ => ⟨fun hall x y hx hy => hall x hx y hy, fun hall x hx y hy => hall x y hx hy⟩

theorem type_iff : checkType none (model.find moduleNode typeProperty) = .ok () ↔
    ∀ o, ⟨moduleNode, typeProperty, o⟩ ∈ S ↔ o = categorySchema := by
  rw [checkType_none]
  constructor
  · intro hone o
    rw [← h.mem_find, hone, List.mem_singleton]
  · intro hone
    have hperm : (model.find moduleNode typeProperty).Perm [categorySchema] :=
      (List.perm_ext_iff_of_nodup (h.find_nodup _ _) (List.nodup_singleton _)).mpr fun o => by
        rw [h.mem_find, hone, List.mem_singleton]
    exact List.perm_singleton.mp hperm

theorem numQuads_ne (o : Node) (ho : ⟨moduleNode, typeProperty, o⟩ ∈ S) : model.numQuads ≠ 0 := by
  rw [h.numQuads]
  exact Finset.card_ne_zero_of_mem ho

/-- Where the code of an error is found. -/
theorem chosen (hcodes : ∀ node, IsError S node → ∃ c, model.code host node = some c) : Chosen host S (model.code host) := by
  intro node hnode
  obtain ⟨c, hc⟩ := hcodes node hnode
  cases hget : model.get node codeProperty with
  | none =>
      rw [Model.code, hget] at hc
      cases hc
  | some o => exact ⟨o, h.get_mem _ _ _ hget, by rw [Model.code, hget]⟩

theorem own_iff {c : Int32} {node : Node} : Own host model c node ↔
    ∃ message, ⟨node, messageProperty, message⟩ ∈ S ∧
      ∃ t, entryOf messageEntry (model.code host) (node, message) = some ((c, ""), t) := by
  simp only [Own, h.mem_find]

end Enumerates

/-- What a category has, by the statements. -/
structure Describes (host : Host) (S : Finset Statement) (code : Node → Option Int32) (category : RdfErrorCategory) : Prop where
  aliases : ∀ s c, category.aliases.lookup s = some c ↔ ∃ x, Attr S aliasProperty x ∧ entryOf aliasEntry code x = some (s, c)
  messages : ∀ k t, nested.lookup category.messages k = some t ↔
    ∃ x, Attr S messageProperty x ∧ entryOf messageEntry code x = some (k, t)
  generics : ∀ c ge, category.genericErrors.lookup c = some ge ↔
    ∃ x, Attr S genericErrorProperty x ∧ entryOf (genericEntry host) code x = some (c, ge)
  defaults : ∀ c inner, category.messages.lookup c = some inner → ∃ t, inner.lookup "" = some t

theorem entryOf_congr {κ β : Type} {entry : Int32 → Node → Option (κ × β)} {code code' : Node → Option Int32}
    {x : Node × Node} (h : code x.1 = code' x.1) : entryOf entry code x = entryOf entry code' x := by
  rw [entryOf, entryOf, h]

theorem entryOf_some {κ β : Type} {entry : Int32 → Node → Option (κ × β)} {code : Node → Option Int32} {x : Node × Node}
    {kv : κ × β} : entryOf entry code x = some kv ↔ ∃ c, code x.1 = some c ∧ entry c x.2 = some kv :=
  Option.bind_eq_some_iff

theorem messageEntry_some {c c' : Int32} {l t : String} {message : Node} :
    messageEntry c message = some ((c', l), t) ↔ message.isText = true ∧ c = c' ∧ localeOf message = l ∧ message.str = t := by
  simp only [messageEntry, Option.ite_none_right_eq_some, Option.some.injEq, Prod.mk.injEq, and_assoc]

theorem distinct_congr {κ β : Type} {p : Node} {entry : Int32 → Node → Option (κ × β)} {code code' : Node → Option Int32}
    (hcode : ∀ node, IsError S node → code node = code' node) (h : Distinct S p (entryOf entry code)) :
    Distinct S p (entryOf entry code') := by
  have heq : ∀ x, Attr S p x → entryOf entry code' x = entryOf entry code x := fun x hx =>
    entryOf_congr (hcode x.1 hx.1).symm
  refine ⟨fun x hx => by rw [heq x hx]; exact h.1 x hx, fun x y hx hy hkey => ?_⟩
  rw [heq x hx, heq y hy] at hkey
  exact h.2 x y hx hy hkey

theorem Passes.congr {code code' : Node → Option Int32} (h : Passes host S code)
    (hcode : ∀ node, IsError S node → code node = code' node) : Passes host S code' where
  type := h.type
  codes node hnode := hcode node hnode ▸ h.codes node hnode
  aliases := distinct_congr hcode h.aliases
  messages := distinct_congr hcode h.messages
  generics := distinct_congr hcode h.generics
  defaults node hnode c hc := by
    rw [← hcode node hnode] at hc
    obtain ⟨x, hx, t, ht⟩ := h.defaults node hnode c hc
    exact ⟨x, hx, t, entryOf_congr (hcode x.1 hx.1) ▸ ht⟩

/-- The statements and the codes leave no choice for the category. -/
theorem Describes.unique {code code' : Node → Option Int32} (h : Describes host S code category)
    (h' : Describes host S code' category') (hcode : ∀ node, IsError S node → code node = code' node) : category = category' := by
  have hsame : ∀ {κ β : Type} {p : Node} {entry : Int32 → Node → Option (κ × β)} {kv : κ × β},
      (∃ x, Attr S p x ∧ entryOf entry code x = some kv) ↔ ∃ x, Attr S p x ∧ entryOf entry code' x = some kv := by
    intro κ β p entry kv
    exact exists_congr fun x => and_congr_right fun hx => by rw [entryOf_congr (hcode x.1 hx.1)]
  have hlookup : ∀ k, nested.lookup category.messages k = nested.lookup category'.messages k := fun k =>
    Option.ext fun t => by rw [h.messages, h'.messages, hsame]
  have hmessages : category.messages = category'.messages := by
    refine Finmap.ext_lookup fun c => ?_
    cases hc : category.messages.lookup c with
    | none =>
        cases hc' : category'.messages.lookup c with
        | none => rfl
        | some inner =>
            obtain ⟨t, ht⟩ := h'.defaults c inner hc'
            have hno := hlookup (c, "")
            simp only [nested_lookup, hc, hc', Option.bind_none, Option.bind_some, ht] at hno
            cases hno
    | some inner =>
        obtain ⟨t, ht⟩ := h.defaults c inner hc
        cases hc' : category'.messages.lookup c with
        | none =>
            have hno := hlookup (c, "")
            simp only [nested_lookup, hc, hc', Option.bind_none, Option.bind_some, ht] at hno
            cases hno
        | some inner' =>
            refine congrArg some (Finmap.ext_lookup fun l => ?_)
            simpa only [nested_lookup, hc, hc', Option.bind_some] using hlookup (c, l)
  have haliases : category.aliases = category'.aliases := Finmap.ext_lookup fun s =>
    Option.ext fun c => by rw [h.aliases, h'.aliases, hsame]
  have hgenerics : category.genericErrors = category'.genericErrors := Finmap.ext_lookup fun s =>
    Option.ext fun c => by rw [h.generics, h'.generics, hsame]
  cases category
  cases category'
  simp_all

/-! Which stores are accepted. -/

theorem defaulted_exists {known : Int32 → Prop} {nodes : List Node} (h : Defaulted host model known nodes) :
    ∀ node ∈ nodes, ∀ c, model.code host node = some c → known c ∨ ∃ node' ∈ nodes, Own host model c node' := by
  induction nodes generalizing known with
  | nil => nofun
  | cons node nodes ih =>
      obtain ⟨hfirst, hrest⟩ := h
      refine List.forall_mem_cons.mpr ⟨fun c hc => ?_, fun node' hnode' c hc => ?_⟩
      · exact (hfirst c hc).imp_right fun hown => ⟨node, List.mem_cons_self, hown⟩
      · rcases ih hrest node' hnode' c hc with (hknown | hown) | ⟨node'', hmem, hown⟩
        · exact .inl hknown
        · exact .inr ⟨node, List.mem_cons_self, hown⟩
        · exact .inr ⟨node'', List.mem_cons_of_mem _ hmem, hown⟩

theorem defaulted_of_known {known : Int32 → Prop} {nodes : List Node}
    (h : ∀ node ∈ nodes, ∀ c, model.code host node = some c → known c ∨ Own host model c node) :
    Defaulted host model known nodes := by
  induction nodes generalizing known with
  | nil => trivial
  | cons node nodes ih =>
      obtain ⟨hfirst, hrest⟩ := List.forall_mem_cons.mp h
      exact ⟨hfirst, ih fun node' hnode' c hc => (hrest node' hnode' c hc).imp_left .inl⟩

theorem defaulted_append {known : Int32 → Prop} {nodes nodes' : List Node} (h : Defaulted host model known nodes)
    (h' : Defaulted host model (fun c => known c ∨ ∃ node ∈ nodes, Own host model c node) nodes') :
    Defaulted host model known (nodes ++ nodes') := by
  induction nodes generalizing known with
  | nil => simpa using h'
  | cons node nodes ih =>
      refine ⟨h.1, ih h.2 ?_⟩
      simpa only [List.mem_cons, exists_eq_or_imp, or_assoc] using h'

theorem load_iff : loadRdfErrorCategory host model = .ok category ↔ model.numQuads ≠ 0 ∧
    checkType none (model.find moduleNode typeProperty) = .ok () ∧
    (model.find moduleNode errorProperty).foldlM (loadError host model) ⟨∅, ∅, ∅⟩ = some category := by
  unfold loadRdfErrorCategory
  by_cases hquads : model.numQuads = 0
  · rw [if_pos hquads]
    exact ⟨nofun, fun h => absurd hquads h.1⟩
  · rw [if_neg hquads]
    cases checkType none (model.find moduleNode typeProperty) with
    | error e => exact ⟨nofun, fun h => nomatch h.2.1⟩
    | ok _ =>
        cases (model.find moduleNode errorProperty).foldlM (loadError host model) ⟨∅, ∅, ∅⟩ with
        | none => exact ⟨nofun, fun h => nomatch h.2.2⟩
        | some category' =>
            simp [hquads, bind, Except.bind]

theorem nested_empty (k : Int32 × String) :
    nested.lookup (∅ : Finmap fun _ : Int32 => Finmap fun _ : String => String) k = none := rfl

theorem finmap_empty {κ β : Type} [DecidableEq κ] (k : κ) : finmap.lookup (∅ : Finmap fun _ : κ => β) k = none := rfl

namespace Enumerates

variable (h : Enumerates S model)
include h

/-- What is accepted. -/
theorem accepts_iff : (∃ category, loadRdfErrorCategory host model = .ok category) ↔
    Passes host S (model.code host) ∧ Defaulted host model (fun _ => False) (model.find moduleNode errorProperty) := by
  have hknown : (fun c => ∃ t, nested.lookup (∅ : Finmap fun _ : Int32 => Finmap fun _ : String => String) (c, "") = some t) =
      fun _ => False := funext fun c => by simp [nested_empty]
  simp only [load_iff, loadErrors_iff, hknown, h.type_iff]
  constructor
  · rintro ⟨category, -, htype, hcodes, haliases, hmessages, hgenerics, hdefaults⟩
    refine ⟨⟨htype, fun node hnode => hcodes node ((h.mem_find _ _ _).mpr hnode), (h.entries_iff finmap_empty _).mp ⟨_, haliases⟩,
      (h.entries_iff nested_empty _).mp ⟨_, hmessages⟩, (h.entries_iff finmap_empty _).mp ⟨_, hgenerics⟩, ?_⟩, hdefaults⟩
    intro node hnode c hc
    obtain ⟨node', hnode', hown⟩ :=
      (defaulted_exists hdefaults node ((h.mem_find _ _ _).mpr hnode) c hc).resolve_left not_false
    obtain ⟨message, hmessage, hentry⟩ := h.own_iff.mp hown
    exact ⟨(node', message), ⟨(h.mem_find _ _ _).mp hnode', hmessage⟩, hentry⟩
  · rintro ⟨hpass, hdefaults⟩
    obtain ⟨aliases, haliases⟩ := (h.entries_iff (o := finmap) (m := ∅) finmap_empty _).mpr hpass.aliases
    obtain ⟨messages, hmessages⟩ := (h.entries_iff (o := nested) (m := ∅) nested_empty _).mpr hpass.messages
    obtain ⟨generics, hgenerics⟩ := (h.entries_iff (o := finmap) (m := ∅) finmap_empty _).mpr hpass.generics
    exact ⟨⟨messages, aliases, generics⟩, h.numQuads_ne _ ((hpass.type categorySchema).mpr rfl), hpass.type,
      fun node hnode => hpass.codes node ((h.mem_find _ _ _).mp hnode), haliases, hmessages, hgenerics, hdefaults⟩

/-- What is read. -/
theorem describes (hload : loadRdfErrorCategory host model = .ok category) :
    Describes host S (model.code host) category := by
  have hpass := (h.accepts_iff.mp ⟨category, hload⟩).1
  obtain ⟨-, -, hfold⟩ := load_iff.mp hload
  obtain ⟨hcodes, haliases, hmessages, hgenerics, -⟩ := loadErrors_iff.mp hfold
  have hall : ∀ k t, nested.lookup category.messages k = some t ↔
      ∃ x, Attr S messageProperty x ∧ entryOf messageEntry (model.code host) x = some (k, t) := by
    intro k t
    simp only [allFrom_lookup hmessages, nested_empty, reduceCtorEq, false_or, h.mem_pairs]
  refine ⟨fun s c => ?_, hall, fun c ge => ?_, fun c inner hinner => ?_⟩
  · have hlookup := @allFrom_lookup _ _ _ _ _ _ _ _ _ _ s c haliases
    change finmap.lookup category.aliases s = some c ↔ _
    simpa only [finmap_empty, reduceCtorEq, false_or, h.mem_pairs] using hlookup
  · have hlookup := @allFrom_lookup _ _ _ _ _ _ _ _ _ _ c ge hgenerics
    change finmap.lookup category.genericErrors c = some ge ↔ _
    simpa only [finmap_empty, reduceCtorEq, false_or, h.mem_pairs] using hlookup
  · -- A map is made for a message of an error, and that error has a default.
    obtain ⟨x, hx, l, v, hentry⟩ := ((nested_allFrom_lookup hmessages c).mp ⟨inner, hinner⟩).resolve_left (by simp)
    obtain ⟨hnode, -⟩ := h.mem_pairs.mp hx
    obtain ⟨c', hc', hmessage⟩ := entryOf_some.mp hentry
    obtain ⟨-, rfl, -⟩ := messageEntry_some.mp hmessage
    obtain ⟨y, hy, t, ht⟩ := hpass.defaults x.1 hnode c' hc'
    have hlookup := (hall (c', "") t).mpr ⟨y, hy, ht⟩
    rw [nested_lookup, hinner] at hlookup
    exact ⟨t, hlookup⟩

end Enumerates

/-! A store that answers in the order of a list. -/

def listing (statements : List Statement) (pick : Node → Option Node) : Model where
  numQuads := statements.length
  find s p := (statements.filter fun st => st.subject = s && st.predicate = p).map Statement.object
  get s p := (if p = codeProperty then pick s else none).or
    ((statements.filter fun st => st.subject = s && st.predicate = p).map Statement.object).head?

variable {statements : List Statement} {pick : Node → Option Node}

theorem mem_listing {s p o : Node} : o ∈ (listing statements pick).find s p ↔ ⟨s, p, o⟩ ∈ statements := by
  simp only [listing, List.mem_map, List.mem_filter, Bool.and_eq_true, decide_eq_true_eq]
  constructor
  · rintro ⟨⟨s', p', o'⟩, ⟨hmem, rfl, rfl⟩, rfl⟩
    exact hmem
  · intro hmem
    exact ⟨_, ⟨hmem, rfl, rfl⟩, rfl⟩

theorem listing_enumerates (hnodup : statements.Nodup)
    (hpick : ∀ s o, pick s = some o → ⟨s, codeProperty, o⟩ ∈ statements) :
    Enumerates statements.toFinset (listing statements pick) where
  numQuads := (List.toFinset_card_of_nodup hnodup).symm
  find_nodup s p := by
    refine (hnodup.filter _).map_on fun x hx y hy hobject => ?_
    simp only [List.mem_filter, Bool.and_eq_true, decide_eq_true_eq] at hx hy
    cases x
    cases y
    simp_all
  mem_find s p o := by rw [mem_listing, List.mem_toFinset]
  get_mem s p o hget := by
    rw [List.mem_toFinset]
    change (if p = codeProperty then pick s else none).or ((listing statements pick).find s p).head? = some o at hget
    rcases Option.or_eq_some_iff.mp hget with hpicked | ⟨-, hhead⟩
    · obtain ⟨rfl, hpicked⟩ := Option.ite_none_right_eq_some.mp hpicked
      exact hpick s o hpicked
    · exact mem_listing.mp (List.mem_of_mem_head? hhead)
  get_none s p hget o := by
    rw [List.mem_toFinset, ← @mem_listing statements pick]
    change (if p = codeProperty then pick s else none).or ((listing statements pick).find s p).head? = none at hget
    rw [List.head?_eq_none_iff.mp (Option.or_eq_none_iff.mp hget).2]
    exact List.not_mem_nil

/-- Any order, and any choice of the codes, is that of a store. -/
theorem Chosen.listing {code : Node → Option Int32} (hcode : Chosen host S code) (hnodup : statements.Nodup)
    (hS : statements.toFinset = S) : ∃ pick, Enumerates S (listing statements pick) ∧
      ∀ node, IsError S node → (Errors.listing statements pick).code host node = code node := by
  classical
  choose o ho using hcode
  refine ⟨fun node => if h : IsError S node then some (o node h) else none, ?_, fun node hnode => ?_⟩
  · have henum : Enumerates statements.toFinset
        (Errors.listing statements fun node => if h : IsError S node then some (o node h) else none) :=
      listing_enumerates hnodup fun s o' hpick => by
        split at hpick
        · cases hpick
          rw [← List.mem_toFinset, hS]
          exact (ho _ _).1
        · cases hpick
    rwa [hS] at henum
  · rw [← (ho node hnode).2]
    simp only [Model.code, Errors.listing, if_pos, hnode, dite_true, Option.some_or]

namespace Enumerates

variable (h : Enumerates S model)
include h

theorem own_of_default {node : Node} {c : Int32} (hdefault : HasDefault S node) (hc : model.code host node = some c) :
    Own host model c node := by
  obtain ⟨message, hmem, htext, hlocale⟩ := hdefault
  exact h.own_iff.mpr ⟨message, hmem, message.str, entryOf_some.mpr ⟨c, hc, messageEntry_some.mpr ⟨htext, rfl, hlocale, rfl⟩⟩⟩

theorem default_of_own {node : Node} {c : Int32} (hown : Own host model c node) : HasDefault S node := by
  obtain ⟨message, hmem, t, hentry⟩ := h.own_iff.mp hown
  obtain ⟨c', -, hmessage⟩ := entryOf_some.mp hentry
  obtain ⟨htext, -, hlocale, -⟩ := messageEntry_some.mp hmessage
  exact ⟨message, hmem, htext, hlocale⟩

end Enumerates

/-- What passes all checks is accepted in some order: the errors with a default
come first. -/
theorem Passes.accepted {code : Node → Option Int32} (h : Passes host S code) (hcode : Chosen host S code) :
    ∃ model category, Enumerates S model ∧ (∀ node, IsError S node → model.code host node = code node) ∧
      loadRdfErrorCategory host model = .ok category := by
  classical
  let first := S.toList.filter fun st => HasDefault S st.object
  let later := S.toList.filter fun st => ¬ HasDefault S st.object
  have hperm : (first ++ later).Perm S.toList := by
    simpa only [first, later, decide_not] using List.filter_append_perm (fun st => decide (HasDefault S st.object)) S.toList
  have hS : (first ++ later).toFinset = S := by
    rw [List.toFinset_eq_of_perm _ _ hperm, Finset.toList_toFinset]
  obtain ⟨pick, henum, hsame⟩ := hcode.listing (hperm.nodup_iff.mpr S.nodup_toList) hS
  have hpass := h.congr fun node hnode => (hsame node hnode).symm
  have hmem_first : ∀ node, node ∈ (listing first pick).find moduleNode errorProperty ↔ IsError S node ∧ HasDefault S node := by
    intro node
    simp only [mem_listing, first, List.mem_filter, Finset.mem_toList, decide_eq_true_eq, IsError]
  have hmem_later : ∀ node ∈ (listing later pick).find moduleNode errorProperty, IsError S node := by
    intro node hnode
    exact Finset.mem_toList.mp (List.mem_of_mem_filter (mem_listing.mp hnode))
  have hfind : (listing (first ++ later) pick).find moduleNode errorProperty =
      (listing first pick).find moduleNode errorProperty ++ (listing later pick).find moduleNode errorProperty := by
    simp only [listing, List.filter_append, List.map_append]
  have hdefaults : Defaulted host (listing (first ++ later) pick) (fun _ => False)
      ((listing (first ++ later) pick).find moduleNode errorProperty) := by
    rw [hfind]
    refine defaulted_append (defaulted_of_known fun node hnode c hc => ?_) (defaulted_of_known fun node hnode c hc => ?_)
    · exact .inr (henum.own_of_default ((hmem_first node).mp hnode).2 hc)
    · obtain ⟨x, hx, t, hentry⟩ := hpass.defaults node (hmem_later node hnode) c hc
      have hown : Own host (listing (first ++ later) pick) c x.1 := henum.own_iff.mpr ⟨x.2, hx.2, t, hentry⟩
      exact .inl (.inr ⟨x.1, (hmem_first x.1).mpr ⟨hx.1, henum.default_of_own hown⟩, hown⟩)
  obtain ⟨category, hload⟩ := henum.accepts_iff.mpr ⟨hpass, hdefaults⟩
  exact ⟨_, category, henum, hsame, hload⟩

/-- Any error can come first. -/
theorem Chosen.first {code : Node → Option Int32} (hcode : Chosen host S code) {node : Node} (hnode : IsError S node) :
    ∃ model rest, Enumerates S model ∧ (∀ node, IsError S node → model.code host node = code node) ∧
      model.find moduleNode errorProperty = node :: rest := by
  have hnodup : (⟨moduleNode, errorProperty, node⟩ :: S.toList.erase ⟨moduleNode, errorProperty, node⟩).Nodup :=
    List.nodup_cons.mpr ⟨S.nodup_toList.not_mem_erase, S.nodup_toList.erase _⟩
  have hS : (⟨moduleNode, errorProperty, node⟩ :: S.toList.erase ⟨moduleNode, errorProperty, node⟩).toFinset = S := by
    rw [List.toFinset_eq_of_perm _ _ (List.perm_cons_erase (Finset.mem_toList.mpr hnode)).symm, Finset.toList_toFinset]
  obtain ⟨pick, henum, hsame⟩ := hcode.listing hnodup hS
  refine ⟨_, ((S.toList.erase ⟨moduleNode, errorProperty, node⟩).filter fun st =>
    st.subject = moduleNode && st.predicate = errorProperty).map Statement.object, henum, hsame, ?_⟩
  simp only [Errors.listing, List.filter_cons, decide_true, Bool.and_self, if_pos, List.map_cons]

/-- Whether a category is accepted, and what it then has, depends only on the
statements. -/
def OrderFree (host : Host) (S : Finset Statement) : Prop :=
  ∀ model model', Enumerates S model → Enumerates S model' →
    (loadRdfErrorCategory host model).toOption = (loadRdfErrorCategory host model').toOption

theorem toOption_eq_some {x : Except LoadError RdfErrorCategory} : x.toOption = some category ↔ x = .ok category := by
  cases x with
  | error e => exact ⟨nofun, nofun⟩
  | ok a => exact ⟨fun h => congrArg _ (Option.some.inj h), fun h => congrArg _ (Except.ok.inj h)⟩

/-- An error without a default of its own may come first. -/
theorem OrderFree.hasDefault (h : OrderFree host S) {code : Node → Option Int32} (hcode : Chosen host S code)
    (hpass : Passes host S code) {node : Node} (hnode : IsError S node) : HasDefault S node := by
  obtain ⟨model, category, henum, -, hload⟩ := hpass.accepted hcode
  obtain ⟨model', rest, henum', hsame, hfind⟩ := hcode.first hnode
  have hload' := toOption_eq_some.mp ((h model' model henum' henum).trans (toOption_eq_some.mpr hload))
  obtain ⟨-, hdefaults⟩ := henum'.accepts_iff.mp ⟨category, hload'⟩
  obtain ⟨c, hc⟩ := hpass.codes node hnode
  rw [hfind] at hdefaults
  exact henum'.default_of_own ((hdefaults.1 c (hc ▸ hsame node hnode)).resolve_left not_false)

/-- Another code of an error would give another category. -/
theorem OrderFree.one_code (h : OrderFree host S) {code : Node → Option Int32} (hcode : Chosen host S code)
    (hpass : Passes host S code) {node o : Node} (hnode : IsError S node) (ho : ⟨node, codeProperty, o⟩ ∈ S) :
    codeOf host (some o) = code node := by
  by_contra hne
  obtain ⟨c, hc⟩ := hpass.codes node hnode
  have hcode' : Chosen host S (Function.update code node (codeOf host (some o))) := by
    intro node' hnode'
    by_cases heq : node' = node
    · subst heq
      exact ⟨o, ho, by rw [Function.update_self]⟩
    · obtain ⟨o', ho', hsame⟩ := hcode node' hnode'
      exact ⟨o', ho', by rw [Function.update_of_ne heq, hsame]⟩
  obtain ⟨model, category, henum, hsame, hload⟩ := hpass.accepted hcode
  obtain ⟨pick, henum', hsame'⟩ := hcode'.listing S.nodup_toList S.toList_toFinset
  have hload' := toOption_eq_some.mp ((h _ model henum' henum).trans (toOption_eq_some.mpr hload))
  -- The default of the error stands under its code, and no other error has that code.
  obtain ⟨message, hmem, htext, hlocale⟩ := h.hasDefault hcode hpass hnode
  have hentry : entryOf messageEntry code (node, message) = some ((c, ""), message.str) :=
    entryOf_some.mpr ⟨c, hc, messageEntry_some.mpr ⟨htext, rfl, hlocale, rfl⟩⟩
  have hlookup := ((henum.describes hload).messages (c, "") message.str).mpr
    ⟨(node, message), ⟨hnode, hmem⟩, (entryOf_congr (hsame node hnode)).trans hentry⟩
  obtain ⟨x, hx, hentry'⟩ := ((henum'.describes hload').messages (c, "") message.str).mp hlookup
  obtain ⟨c', hc', hmessage⟩ := entryOf_some.mp hentry'
  obtain ⟨-, rfl, -⟩ := messageEntry_some.mp hmessage
  rw [hsame' x.1 hx.1] at hc'
  by_cases heq : x.1 = node
  · rw [heq, Function.update_self] at hc'
    exact hne (hc'.trans hc.symm)
  · rw [Function.update_of_ne heq] at hc'
    have hsecond : entryOf messageEntry code x = some ((c', ""), message.str) := entryOf_some.mpr ⟨c', hc', hmessage⟩
    have hpair := hpass.messages.2 x (node, message) hx ⟨hnode, hmem⟩ (by rw [hsecond, hentry])
    exact heq (congrArg Prod.fst hpair)

/-- The codes of an error are one number, so that it does not matter which one
is asked for. -/
theorem code_unique {model' : Model} (h : Enumerates S model) (h' : Enumerates S model') {node : Node}
    (hone : ∃ v, ∀ o, ⟨node, codeProperty, o⟩ ∈ S → codeOf host (some o) = some v) :
    model.code host node = model'.code host node := by
  obtain ⟨v, hv⟩ := hone
  rw [Model.code, Model.code]
  cases hget : model.get node codeProperty with
  | none =>
      cases hget' : model'.get node codeProperty with
      | none => rfl
      | some o' => exact absurd (h'.get_mem _ _ _ hget') (h.get_none _ _ hget o')
  | some o =>
      cases hget' : model'.get node codeProperty with
      | none => exact absurd (h.get_mem _ _ _ hget) (h'.get_none _ _ hget' o)
      | some o' => rw [hv o (h.get_mem _ _ _ hget), hv o' (h'.get_mem _ _ _ hget')]

/-- What one store is read as, where each error has one code and its own
default, any other is. -/
theorem load_of_load {model' : Model} (h : Enumerates S model) (h' : Enumerates S model')
    (hwell : ∀ node, IsError S node →
      (∃ v, ∀ o, ⟨node, codeProperty, o⟩ ∈ S → codeOf host (some o) = some v) ∧ HasDefault S node)
    (hload : loadRdfErrorCategory host model = .ok category) : loadRdfErrorCategory host model' = .ok category := by
  have hsame : ∀ node, IsError S node → model.code host node = model'.code host node := fun node hnode =>
    code_unique h h' (hwell node hnode).1
  have hpass := (h.accepts_iff.mp ⟨category, hload⟩).1.congr hsame
  have hdefaults : Defaulted host model' (fun _ => False) (model'.find moduleNode errorProperty) :=
    defaulted_of_known fun node hnode c hc =>
      .inr (h'.own_of_default (hwell node ((h'.mem_find _ _ _).mp hnode)).2 hc)
  obtain ⟨category', hload'⟩ := h'.accepts_iff.mpr ⟨hpass, hdefaults⟩
  rw [hload', (h.describes hload).unique (h'.describes hload') hsame]

theorem orderFree_iff : OrderFree host S ↔ (∀ code, Chosen host S code → ¬ Passes host S code) ∨
    ∀ node, IsError S node →
      (∃ v, ∀ o, ⟨node, codeProperty, o⟩ ∈ S → codeOf host (some o) = some v) ∧ HasDefault S node := by
  constructor
  · intro h
    by_cases hpasses : ∃ code, Chosen host S code ∧ Passes host S code
    · obtain ⟨code, hcode, hpass⟩ := hpasses
      refine .inr fun node hnode => ⟨?_, h.hasDefault hcode hpass hnode⟩
      obtain ⟨c, hc⟩ := hpass.codes node hnode
      exact ⟨c, fun o ho => (h.one_code hcode hpass hnode ho).trans hc⟩
    · exact .inl fun code hcode hpass => hpasses ⟨code, hcode, hpass⟩
  · rintro (hnone | hwell) model model' henum henum'
    · have hrefused : ∀ model, Enumerates S model → (loadRdfErrorCategory host model).toOption = none := by
        intro model henum
        cases hload : loadRdfErrorCategory host model with
        | error e => rfl
        | ok category =>
            have hpass := (henum.accepts_iff.mp ⟨category, hload⟩).1
            exact absurd hpass (hnone _ (henum.chosen hpass.codes))
      rw [hrefused model henum, hrefused model' henum']
    · refine Option.ext fun category => ?_
      rw [toOption_eq_some, toOption_eq_some]
      exact ⟨load_of_load henum henum' hwell, load_of_load henum' henum hwell⟩

/-! What an accepted category says. -/

theorem Describes.message_some {code : Node → Option Int32} (h : Describes host S code category) (curloc : String)
    (value : Int32) : ∃ text, category.message curloc value = some text := by
  rw [RdfErrorCategory.message]
  cases hmessages : category.messages.lookup value with
  | none => exact ⟨_, rfl⟩
  | some messages =>
      change ∃ text, (match (messages.keys.sort (· ≤ ·)).find? _ with
        | some locale => messages.lookup locale
        | none => messages.lookup "") = some text
      split
      · rename_i locale hfind
        have hkey := List.mem_of_find?_eq_some hfind
        rw [Finset.mem_sort, Finmap.mem_keys, Finmap.mem_iff] at hkey
        exact hkey
      · exact h.defaults value messages hmessages

theorem Describes.alias {code : Node → Option Int32} (h : Describes host S code category) (hpass : Passes host S code)
    {x : Node × Node} (hx : Attr S aliasProperty x) :
    ∃ c, code x.1 = some c ∧ category.aliases.lookup x.2.str = some c := by
  obtain ⟨⟨s, c⟩, hkv⟩ := hpass.aliases.1 x hx
  obtain ⟨c', hc', hentry⟩ := entryOf_some.mp hkv
  obtain ⟨-, heq⟩ := Option.ite_none_right_eq_some.mp hentry
  cases heq
  exact ⟨_, hc', (h.aliases _ _).mpr ⟨x, hx, hkv⟩⟩

end

/-- The order of the store does not matter, exactly if no codes of the errors
pass the checks or each error has one code and its own default message. What is
accepted has a message for every value in every locale, and its aliases denote
the codes of their errors. -/
theorem rdf_order_iff (host : Host) (S : Finset Statement) :
    (OrderFree host S ↔ (∀ code, Chosen host S code → ¬ Passes host S code) ∨
      ∀ node, IsError S node →
        (∃ v, ∀ o, ⟨node, codeProperty, o⟩ ∈ S → codeOf host (some o) = some v) ∧ HasDefault S node) ∧
      ∀ model category, Enumerates S model → loadRdfErrorCategory host model = .ok category →
        (∀ curloc value, ∃ text, category.message curloc value = some text) ∧
        ∀ x, Attr S aliasProperty x → ∃ c, model.code host x.1 = some c ∧ category.aliases.lookup x.2.str = some c := by
  refine ⟨orderFree_iff, fun model category henum hload => ?_⟩
  have hdescribes := henum.describes hload
  exact ⟨hdescribes.message_some, fun x hx => hdescribes.alias (henum.accepts_iff.mp ⟨category, hload⟩).1 hx⟩

/-- Integers are the literals with a datatype. -/
def smallHost : Host where
  isInt
    | .literal _ (some _) _ => true
    | _ => false
  toInt node := if node.str = "1" then 1 else 2
  errnoOf _ := 0

def integerNode (s : String) : Node := .literal s (some "http://www.w3.org/2001/XMLSchema#integer") none

/-- Two errors that have these codes, and messages in these languages. -/
def twoErrors (code code' : String) (language language' : Option String) : List Statement :=
  [⟨moduleNode, typeProperty, categorySchema⟩,
    ⟨.blank "a", codeProperty, integerNode code⟩, ⟨.blank "a", messageProperty, .literal "?" none language⟩,
    ⟨.blank "b", codeProperty, integerNode code'⟩, ⟨.blank "b", messageProperty, .literal "!" none language'⟩]

def inOrder (nodes : List Node) (rest : List Statement) : Model :=
  listing (nodes.map (fun node => ⟨moduleNode, errorProperty, node⟩) ++ rest) fun _ => none

example : (loadRdfErrorCategory smallHost (inOrder [.blank "b", .blank "a"] (twoErrors "1" "2" none none))).toOption.isSome =
    true := by decide

/-- One code, and a default message only at one of the errors. -/
theorem shared_code_depends_on_order :
    ∃ S model model', Enumerates S model ∧ Enumerates S model' ∧
      (loadRdfErrorCategory smallHost model).toOption.isSome = true ∧
      loadRdfErrorCategory smallHost model' = .error .badRdfErrorCategory := by
  have hswap : ∀ rest : List Statement,
      (⟨moduleNode, errorProperty, .blank "b"⟩ :: ⟨moduleNode, errorProperty, .blank "a"⟩ :: rest).toFinset =
        (⟨moduleNode, errorProperty, .blank "a"⟩ :: ⟨moduleNode, errorProperty, .blank "b"⟩ :: rest).toFinset :=
    fun rest => List.toFinset_eq_of_perm _ _ (.swap ..)
  have henum : Enumerates _ (inOrder [.blank "a", .blank "b"] (twoErrors "1" "1" none (some "en"))) :=
    listing_enumerates (by decide) nofun
  have henum' : Enumerates _ (inOrder [.blank "b", .blank "a"] (twoErrors "1" "1" none (some "en"))) :=
    listing_enumerates (by decide) nofun
  exact ⟨_, _, _, henum, hswap _ ▸ henum', by decide, by decide⟩

end Emilua.Errors
