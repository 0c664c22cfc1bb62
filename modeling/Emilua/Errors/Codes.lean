import Mathlib.Tactic

/-!
Error codes as Lua sees them: tables with a code and a category, where the
category is a userdata with a pointer. `==` on them goes through a metamethod
that compares the categories with `==`, and so through another one.
-/
namespace Emilua.Errors

/-- The address of a `std::error_category`. -/
abbrev Category := Nat

/-- A Lua value. Userdata here have the metatable of error categories, and
tables that of error codes. -/
inductive Val where
  | nil
  | boolean (b : Bool)
  | number (n : Int32)
  | string (s : String)
  | table (ref : Nat)
  | userdata (ref : Nat)
deriving DecidableEq, Repr

structure ErrorTable where
  code : Int32
  category : Nat

structure Heap where
  userdata : List Category
  tables : List ErrorTable
  held : ∀ t ∈ tables, t.category < userdata.length

def Heap.empty : Heap := ⟨[], [], nofun⟩

/-- `push(lua_State*, std::error_code)`. -/
def Heap.push (h : Heap) (value : Int32) (cat : Category) : Val × Heap :=
  if value = 0 then (.nil, h)
  else
    (.table h.tables.length,
      { userdata := h.userdata ++ [cat]
        tables := h.tables ++ [⟨value, h.userdata.length⟩]
        held := by
          intro t ht
          rw [List.length_append]
          rcases List.mem_append.mp ht with hold | hnew
          · exact Nat.lt_add_right _ (h.held t hold)
          · rw [List.mem_singleton.mp hnew]
            exact Nat.lt_succ_self _ })

def Heap.field (h : Heap) (ref : Nat) (key : Val) : Option Val := do
  let t ← h.tables[ref]?
  if key = .string "code" then some (.number t.code)
  else if key = .string "category" then some (.userdata t.category)
  else some .nil

def Val.truthy : Val → Bool
  | .nil => false
  | .boolean b => b
  | _ => true

/-! The stack of a C function, with its top first. `none` stands for a use of
the API that has no meaning. -/

abbrev Api := StateT (List Val) Option

/-- Positive indices count from the bottom, negative ones from the top. -/
def stackAt (stack : List Val) (i : Int) : Option Val :=
  if 0 < i then stack.reverse[i.toNat - 1]? else stack[(-i).toNat - 1]?

def slot (i : Int) : Api Val := do
  let stack ← get
  (stackAt stack i : Option Val)

def pushval (v : Val) : Api Unit := modify (v :: ·)

def pushvalue (i : Int) : Api Unit := do pushval (← slot i)

def touserdata (h : Heap) (i : Int) : Api Category := do
  match ← slot i with
  | .userdata ref => (h.userdata[ref]? : Option Category)
  | _ => failure

/-- The key on top is replaced by its value. -/
def rawget (h : Heap) (i : Int) : Api Unit := do
  match ← slot i, ← get with
  | .table ref, key :: stack => do
      let v ← (h.field ref key : Option Val)
      set (v :: stack)
  | _, _ => failure

def rawequal (i j : Int) : Api Bool := return (← slot i) = (← slot j)

/-- What a metamethod with two arguments gives: the first of its results. -/
def metamethod (f : Api Nat) (a b : Val) : Option Bool := do
  let (n, stack) ← f.run [b, a]
  return ((stack.take n).getLast?.getD .nil).truthy

/-- `__eq` of error categories. -/
def errorCategoryEq (h : Heap) : Api Nat := do
  let cat1 ← touserdata h 1
  let cat2 ← touserdata h 1
  return if cat1 = cat2 then 1 else 0

/-- `==`, given the metamethod of tables. -/
def equalWith (h : Heap) (onTables : Api Nat) (a b : Val) : Option Bool :=
  if a = b then some true
  else
    match a, b with
    | .userdata _, .userdata _ => metamethod (errorCategoryEq h) a b
    | .table _, .table _ => metamethod onTables a b
    | _, _ => some false

/-- `lua_equal`, of what is no table. -/
def equal (h : Heap) (i j : Int) : Api Bool := do
  let a ← slot i
  let b ← slot j
  (equalWith h failure a b : Option Bool)

/-- `__eq` of error codes. -/
def errorCodeEq (h : Heap) : Api Nat := do
  pushval (.string "code")
  pushvalue (-1)
  rawget h 1
  pushvalue (-2)
  rawget h 2
  if !(← rawequal (-1) (-2)) then
    pushval (.boolean false)
    return 1
  pushval (.string "category")
  pushvalue (-1)
  rawget h 1
  pushvalue (-2)
  rawget h 2
  pushval (.boolean (← equal h (-1) (-2)))
  return 1

def Heap.eq (h : Heap) : Val → Val → Option Bool := equalWith h (errorCodeEq h)

/-- Whether `get_line` takes an error from the stream for its end, with so many
bytes before it. -/
def isEnd (h : Heap) (nread eof : Val) (ready : Nat) : Option Bool := do
  let same ← h.eq nread eof
  return !(!same || ready = 0)

section
variable (h : Heap) (i j k : Fin h.tables.length)

def Heap.code : Int32 := h.tables[i].code

theorem userdata_lt : h.tables[i].category < h.userdata.length := h.held _ (List.getElem_mem i.isLt)

def Heap.category : Category := h.userdata.get ⟨h.tables[i].category, userdata_lt h i⟩

variable {h} {i j k}

theorem field_code : h.field i (.string "code") = some (.number (h.code i)) := by
  simp [Heap.field, Heap.code]

theorem field_category : h.field i (.string "category") = some (.userdata h.tables[i].category) := by
  simp [Heap.field]

/-- The first argument is compared with itself. -/
theorem errorCategoryEq_true {ref ref' : Nat} (href : ref < h.userdata.length) :
    metamethod (errorCategoryEq h) (.userdata ref) (.userdata ref') = some true := by
  simp [metamethod, errorCategoryEq, touserdata, slot, stackAt, List.getElem?_eq_getElem href, Val.truthy]

theorem equalWith_userdata {ref ref' : Nat} (f : Api Nat) (href : ref < h.userdata.length) :
    equalWith h f (.userdata ref) (.userdata ref') = some true := by
  rw [equalWith, errorCategoryEq_true href, ite_self]

theorem stackAt_cons {stack : List Val} {n : Int} {v : Val} (x : Val) (hn : 0 < n) (hv : stackAt stack n = some v) :
    stackAt (x :: stack) n = some v := by
  rw [stackAt, if_pos hn] at hv ⊢
  rw [List.reverse_cons, List.getElem?_append_left (List.getElem?_eq_some_iff.mp hv).1, hv]

/-- The field of both arguments is put on the stack. -/
def fields (h : Heap) (key : Val) : Api Unit := do
  pushval key
  pushvalue (-1)
  rawget h 1
  pushvalue (-2)
  rawget h 2

theorem fields_run {stack : List Val} {key a b : Val} (hone : stackAt stack 1 = some (.table i))
    (htwo : stackAt stack 2 = some (.table j)) (ha : h.field i key = some a) (hb : h.field j key = some b) :
    (fields h key).run stack = some ((), b :: a :: key :: stack) := by
  have hfirst : stackAt (key :: key :: stack) 1 = some (.table i) :=
    stackAt_cons _ (by decide) (stackAt_cons _ (by decide) hone)
  have hsecond : stackAt (key :: a :: key :: stack) 2 = some (.table j) :=
    stackAt_cons _ (by decide) (stackAt_cons _ (by decide) (stackAt_cons _ (by decide) htwo))
  have htop : stackAt (key :: stack) (-1) = some key := rfl
  have hnext : stackAt (a :: key :: stack) (-2) = some key := rfl
  simp [fields, pushval, pushvalue, rawget, slot, hfirst, hsecond, htop, hnext, ha, hb]

theorem errorCodeEq_fields : errorCodeEq h = (do
    fields h (.string "code")
    if !(← rawequal (-1) (-2)) then
      pushval (.boolean false)
      return 1
    fields h (.string "category")
    pushval (.boolean (← equal h (-1) (-2)))
    return 1) := by
  simp only [errorCodeEq, fields, bind_assoc]

theorem errorCodeEq_eq :
    metamethod (errorCodeEq h) (.table i) (.table j) = some (decide (h.code i = h.code j)) := by
  have hcats := @equalWith_userdata h h.tables[j].category h.tables[i].category failure (userdata_lt h j)
  rw [Fin.getElem_fin, Fin.getElem_fin] at hcats
  have hcodes : (fields h (.string "code")).run [.table j, .table i] =
      some ((), [.number (h.code j), .number (h.code i), .string "code", .table j, .table i]) :=
    fields_run rfl rfl field_code field_code
  have hcategories (key a b : Val) : (fields h (.string "category")).run [b, a, key, .table j, .table i] =
      some ((), [.userdata h.tables[j].category, .userdata h.tables[i].category, .string "category", b, a, key,
        .table j, .table i]) :=
    fields_run rfl rfl field_category field_category
  rw [metamethod, errorCodeEq_fields, StateT.run_bind, hcodes]
  by_cases hcode : h.code i = h.code j
  · simp [hcategories, hcode, rawequal, equal, slot, stackAt, pushval, hcats, Val.truthy]
  · simp [Ne.symm hcode, hcode, rawequal, slot, stackAt, pushval, Val.truthy]

theorem eq_eq : h.eq (.table i) (.table j) = some (decide (h.code i = h.code j)) := by
  rw [Heap.eq, equalWith]
  by_cases hsame : (Val.table i) = .table j
  · have hij : i = j := Fin.ext (Val.table.inj hsame)
    rw [if_pos hsame, hij, decide_eq_true rfl]
  · rw [if_neg hsame, errorCodeEq_eq]

/-- The same error. -/
def Heap.Same (h : Heap) (i j : Fin h.tables.length) : Prop := h.code i = h.code j ∧ h.category i = h.category j

theorem eq_iff : h.eq (.table i) (.table j) = some true ↔ h.code i = h.code j := by
  rw [eq_eq, Option.some.injEq, decide_eq_true_iff]

theorem isEnd_iff (ready : Nat) : isEnd h (.table i) (.table j) (ready + 1) = some true ↔ h.code i = h.code j := by
  simp [isEnd, eq_eq]

/-- `==` says whether two errors are the same, exactly unless they have one code
in different categories. -/
theorem error_eq_iff (h : Heap) (i j : Fin h.tables.length) :
    ((h.eq (.table i) (.table j) = some true ↔ h.Same i j) ↔ (h.code i = h.code j → h.category i = h.category j)) ∧
      (∀ ready, (isEnd h (.table i) (.table j) (ready + 1) = some true ↔ h.Same i j) ↔
        (h.code i = h.code j → h.category i = h.category j)) ∧
      Equivalence fun i j : Fin h.tables.length => h.eq (.table i) (.table j) = some true := by
  have hsame : (h.code i = h.code j ↔ h.Same i j) ↔ (h.code i = h.code j → h.category i = h.category j) :=
    ⟨fun hiff hcode => (hiff.mp hcode).2, fun hcat => ⟨fun hcode => ⟨hcode, hcat hcode⟩, And.left⟩⟩
  refine ⟨?_, fun ready => ?_, ?_⟩
  · rw [eq_iff, hsame]
  · rw [isEnd_iff, hsame]
  · simp only [eq_iff]
    exact ⟨fun _ => rfl, Eq.symm, Eq.trans⟩

/-- ENOENT of the system category and the end of a stream, which is 2 in the
category of asio. -/
theorem enoent_is_end :
    ∃ (h : Heap) (i j : Fin h.tables.length), h = ((Heap.empty.push 2 0).2.push 2 1).2 ∧
      h.eq (.table i) (.table j) = some true ∧ isEnd h (.table i) (.table j) 1 = some true ∧ ¬ h.Same i j :=
  ⟨_, ⟨0, by decide⟩, ⟨1, by decide⟩, rfl, by decide, by decide, fun hsame => absurd hsame.2 (by decide)⟩

end

end Emilua.Errors
