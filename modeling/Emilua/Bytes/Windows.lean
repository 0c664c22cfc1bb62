import Emilua.Bytes.Contents
import Emilua.Bytes.Table

/-!
The window of a span lies inside the allocation that owns it. Operations that
write do so inside a window and leave the length of every allocation as it is,
so that only the new spans are to be looked at.
-/
namespace Emilua.Bytes
open Transition

structure Span.Fits (m : Memory) (bs : Span) : Prop extends bs.Within m where
  narrow : bs.capacity ≤ intMax

section
variable {m m' : Memory} {bs bs' : Span}

theorem Span.Fits.grow (h : bs.Fits m) (hm : m.Grows m') : bs.Fits m' := ⟨h.toWithin.grow hm, h.narrow⟩

theorem fits_null (m : Memory) : Span.null.Fits m := ⟨within_null m, by decide⟩

/-! What each operation makes. -/

/-- What a constructor is given. -/
def Construct.Sized (m : Memory) : Construct → Prop
  | .share bs => bs.Fits m
  | .allocate size capacity => 0 ≤ size ∧ size ≤ capacity ∧ capacity ≤ intMax

theorem newSpan_sized {length capacity : Int} {c : Construct} (hnarrow : capacity ≤ intMax)
    (h : newSpan length capacity = .ok c) : c.Sized m := by
  unfold newSpan at h
  split at h
  · cases h
  · split at h <;> cases h
    · exact fits_null m
    · exact ⟨by omega, by omega, hnarrow⟩

theorem new_sized {length capacity : Arg} {c : Construct} (h : byteSpanNew length capacity = .ok c) : c.Sized m := by
  cases length with
  | number n =>
      cases capacity with
      | nil => exact newSpan_sized n.le h
      | number k => exact newSpan_sized k.le h
      | _ => cases h
  | _ => cases h

theorem slice_fits (hfits : bs.Fits m) {start stop : Int} (h : bs.slice start stop = .ok bs') : bs'.Fits m := by
  have hguard : ¬ (start < 1 ∨ start - 1 > stop ∨ stop > bs.capacity) := by
    intro hout
    rw [Span.slice, if_pos hout] at h
    cases h
  obtain ⟨bs'', hok, hin, -, hcap, -⟩ := slice_spec hfits.toWithin start stop (by omega) (by omega)
    (by omega)
  obtain rfl : bs' = bs'' := Except.ok.inj (h.symm.trans hok)
  have hnarrow := hfits.narrow
  exact ⟨hin, by omega⟩

/-- A part of the bytes of a span. -/
theorem part_fits (hfits : bs.Fits m) {first : Nat} {size : Int} (hsize : 0 ≤ size)
    (hle : first + size ≤ (bs.read m).length) :
    (⟨bs.data.map (·.add first), size, bs.capacity - first⟩ : Span).Fits m := by
  have hread : (bs.read m).length ≤ bs.size.toNat := Memory.read_length ..
  have hnonneg := hfits.size_nonneg
  have hsize_le := hfits.size_le
  have hnarrow := hfits.narrow
  refine ⟨⟨hsize, ?_, ?_, ?_⟩, ?_⟩
  · simp only
    omega
  · intro hnone
    have hzero := hfits.null (by simpa using hnone)
    simp only
    omega
  · intro p hp
    obtain ⟨q, hq, rfl⟩ := Option.map_eq_some_iff.mp hp
    obtain ⟨hlt, hin⟩ := hfits.inside q hq
    refine ⟨hlt, ?_⟩
    simp only [Ptr.add]
    omega
  · simp only
    omega

theorem sub_fits (hfits : bs.Fits m) (x : Range (bs.read m).length) : (bs.sub x).Fits m := by
  have hfirst := x.first_le
  have hsecond := x.second_le
  exact part_fits hfits (by omega) (by omega)

theorem firstIndex_spec {n i : Nat} {p : Nat → Bool} (h : firstIndex n p = some i) :
    i < n ∧ p i = true ∧ ∀ j < i, p j = false := by
  obtain ⟨hp, hmem, hbefore⟩ := List.find?_range_eq_some.mp h
  refine ⟨List.mem_range.mp hmem, hp, fun j hj => ?_⟩
  simpa using hbefore j hj

theorem lastIndex_lt {n i : Nat} {p : Nat → Bool} (h : lastIndex n p = some i) : i < n := by
  have hmem := List.mem_of_find?_eq_some h
  exact List.mem_range.mp (List.mem_reverse.mp hmem)

theorem lastIndex_ge {n i j : Nat} {p : Nat → Bool} (h : lastIndex n p = some i) (hj : j < n) (hp : p j = true) :
    j ≤ i := by
  induction n with
  | zero => exact absurd hj (Nat.not_lt_zero j)
  | succ n ih =>
      simp only [lastIndex, List.range_succ, List.reverse_append, List.reverse_cons, List.reverse_nil, List.nil_append,
        List.cons_append, List.find?_cons] at h
      split at h
      · have hi : n = i := Option.some.inj h
        omega
      · rename_i hn
        refine ih h (Nat.lt_of_le_of_ne (Nat.le_of_lt_succ hj) ?_)
        rintro rfl
        rw [hp] at hn
        cases hn

theorem trimmed_fits (hfits : bs.Fits m) (lws : View) : (bs.trimmed m lws).Fits m := by
  unfold Span.trimmed
  split
  · rename_i start stop hstart hstop
    obtain ⟨hlt, hnot, -⟩ := firstIndex_spec hstart
    simp only [Bool.and_eq_true] at hnot
    have hle : start ≤ stop := lastIndex_ge hstop hlt (by simpa [Nat.le_of_lt hlt] using hnot.2)
    have hstop_lt := lastIndex_lt hstop
    exact part_fits hfits (by omega) (by omega)
  · exact fits_null m

theorem copy_grows (hfits : bs.Fits m) (src : View) : m.Grows (bs.copy m src).1 := by
  simp only [Span.copy]
  split
  · refine grows_write fun p hp => ?_
    obtain ⟨-, hin⟩ := hfits.inside p hp
    have hsize := hfits.size_nonneg
    have hle := hfits.size_le
    have hlen := List.length_take_le (min src.size bs.size.toNat) (src.read m)
    omega
  · exact .refl m

def totalSize (vs : List View) : Nat := (vs.map View.size).sum

theorem addSizes_eq {total t : Int} {vs : List View} (hle : total ≤ intMax) (h : addSizes total vs = .ok t) :
    t = total + totalSize vs ∧ t ≤ intMax := by
  induction vs generalizing total with
  | nil =>
      cases h
      exact ⟨by simp [totalSize], hle⟩
  | cons v vs ih =>
      rw [addSizes] at h
      split at h
      · rename_i hnext
        obtain ⟨ht, hmax⟩ := ih hnext h
        refine ⟨?_, hmax⟩
        rw [ht]
        simp only [totalSize, List.map_cons, List.sum_cons]
        omega
      · cases h

/-- The loop of `append` stays inside a window that has room for all. -/
theorem appendViews_grows {d : Option Ptr} {idx : Nat} {vs : List View}
    (h : ∀ p, d = some p → p.block < m.length ∧ p.offset + (idx + totalSize vs) ≤ (m.block p.block).length) :
    m.Grows (appendViews d idx m vs) := by
  induction vs generalizing idx m with
  | nil => exact .refl m
  | cons v vs ih =>
      have hsum : totalSize (v :: vs) = v.size + totalSize vs := by simp [totalSize]
      rw [appendViews]
      split
      · rename_i hzero
        refine ih fun p hp => ?_
        have hroom := h p hp
        omega
      · have hwrite : m.Grows (m.write (d.map (·.add idx)) (v.read m)) := by
          refine grows_write fun q hq => ?_
          obtain ⟨p, hp, rfl⟩ := Option.map_eq_some_iff.mp hq
          have hroom := h p hp
          have hlen := View.read_length m v
          simp only [Ptr.add]
          omega
        refine hwrite.trans (ih fun p hp => ?_)
        have hroom := h p hp
        rw [hwrite.blocks _ hroom.1]
        exact ⟨Nat.lt_of_lt_of_le hroom.1 hwrite.length_le, by omega⟩

theorem bind_ok {α β : Type} {x : Except Error α} {k : α → Except Error β} {b : β} (h : x >>= k = .ok b) :
    ∃ a, x = .ok a ∧ k a = .ok b := by
  cases x with
  | error e => cases h
  | ok a => exact ⟨a, rfl, h⟩

def Construct.capacity : Construct → Int
  | .share bs => bs.capacity
  | .allocate _ capacity => capacity

theorem Construct.run_capacity (junk : Nat → Nat → UInt8) (c : Construct) : (c.run junk m).2.capacity = c.capacity := by
  cases c <;> rfl

/-- What `append` makes has room for all that it copies. -/
theorem memberAppend_sized (hfits : bs.Fits m) {args : List Arg} {c : Construct} {tail : List View}
    (h : byteSpanMemberAppend bs args = .ok (c, tail)) : c.Sized m ∧ bs.size + totalSize tail ≤ c.capacity := by
  have hnonneg := hfits.size_nonneg
  have hnarrow := hfits.narrow
  have hle := hfits.size_le
  obtain ⟨vs, -, h⟩ := bind_ok h
  obtain ⟨total, htotal, h⟩ := bind_ok h
  obtain ⟨ht, hmax⟩ := addSizes_eq (by omega) htotal
  split at h
  · cases h
    refine ⟨fits_null m, ?_⟩
    simp only [totalSize, Construct.capacity, Span.null, List.map_nil, List.sum_nil]
    omega
  · split at h <;> cases h
    · refine ⟨⟨⟨by simp only; omega, by simp only; omega, hfits.null, hfits.inside⟩, hnarrow⟩, ?_⟩
      simp only [Construct.capacity]
      omega
    · exact ⟨⟨by omega, le_rfl, hmax⟩, ht.ge⟩

theorem nonMemberAppend_sized {args : List Arg} {c : Construct} {vs : List View}
    (h : byteSpanNonMemberAppend args = .ok (c, vs)) : c.Sized m ∧ totalSize vs ≤ c.capacity := by
  obtain ⟨vs', -, h⟩ := bind_ok h
  obtain ⟨total, htotal, h⟩ := bind_ok h
  obtain ⟨ht, hmax⟩ := addSizes_eq (by decide) htotal
  rw [zero_add] at ht
  split at h <;> cases h
  · exact ⟨fits_null m, le_rfl⟩
  · exact ⟨⟨by omega, le_rfl, hmax⟩, ht.ge⟩

theorem memberAppendWrites_grows {dst : Span} (hbs : 0 ≤ bs.size) (hdst : dst.Fits m) {c : Construct} {tail : List View}
    (hroom : bs.size + totalSize tail ≤ dst.capacity) : m.Grows (memberAppendWrites m bs dst c tail) := by
  have happend : ∀ {m' : Memory}, m.Grows m' → m.Grows (appendViews dst.data bs.size.toNat m' tail) := by
    intro m' hm
    refine hm.trans (appendViews_grows fun p hp => ?_)
    obtain ⟨hlt, hin⟩ := (hdst.grow hm).inside p hp
    exact ⟨hlt, by omega⟩
  cases c with
  | share => exact happend (.refl m)
  | allocate size capacity =>
      refine happend ?_
      simp only
      split
      · refine grows_write fun p hp => ?_
        obtain ⟨-, hin⟩ := hdst.inside p hp
        have hlen : (bs.read m).length ≤ bs.size.toNat := Memory.read_length ..
        omega
      · exact .refl m

end

/-- Every span is whole, and its window is inside its allocation. -/
def Table.Fits (s : Table) : Prop := ∀ o ∈ s.objects, ∃ bs, o = .span bs ∧ bs.Fits s.mem

/-- The spans after an operation fit, and one that raises makes none. -/
def Kept (s : Table) (x : Table × Except Error (List Result)) : Prop :=
  x.1.Fits ∧ ∀ e, x.2 = .error e → x.1 = s

section
variable {R : Type} {env : Env R} {s s' : Table} {bs : Span}

theorem Table.Fits.resolve (h : s.Fits) {x : Ref} (hx : s.resolve x = .span bs) : bs.Fits s.mem := by
  cases x with
  | object i =>
      simp only [Table.resolve] at hx
      split at hx
      · rename_i bs' hobj
        cases hx
        obtain ⟨bs'', heq, hfits⟩ := h _ (List.mem_of_getElem? hobj)
        cases heq
        exact hfits
      · cases hx
  | _ => cases hx

theorem Table.Fits.setMem (h : s.Fits) {m : Memory} (hmem : s.mem.Grows m) : ({ s with mem := m } : Table).Fits := by
  intro o ho
  obtain ⟨bs, rfl, hfits⟩ := h o ho
  exact ⟨bs, rfl, hfits.grow hmem⟩

theorem Table.Fits.push (h : s.Fits) (hbs : bs.Fits s.mem) : (s.push (.span bs)).Fits := by
  intro o ho
  rcases List.mem_append.mp ho with hold | hnew
  · exact h o hold
  · exact ⟨bs, List.mem_singleton.mp hnew, hbs⟩

theorem kept_error (h : s.Fits) (e : Error) : Kept s (s, .error e) := ⟨h, fun _ _ => rfl⟩

theorem kept_ok (h : s'.Fits) (rs : List Result) : Kept s (s', .ok rs) := ⟨h, nofun⟩

theorem kept_withSelf (h : s.Fits) {self : Ref} {k : Span → Table × Except Error (List Result)}
    (hk : ∀ bs, s.resolve self = .span bs → bs.Fits s.mem → Kept s (k bs)) : Kept s (withSelf s self k) := by
  unfold withSelf
  split
  · rename_i bs hself
    exact hk bs hself (h.resolve hself)
  · exact kept_error h _

theorem kept_withRegex (h : s.Fits) {r : Option R} {k : R → Table × Except Error (List Result)}
    (hk : ∀ r, Kept s (k r)) : Kept s (withRegex s r k) := by
  unfold withRegex
  split
  · exact hk _
  · exact kept_error h _

theorem kept_readOnly {α : Type} (h : s.Fits) (x : Except Error α) (result : α → Result) : Kept s (readOnly s x result) :=
  ⟨h, fun _ _ => rfl⟩

/-- The constructor of a span that is given its memory. -/
theorem build_ok (env : Env R) (h : s.Fits) {c : Construct} (hc : c.Sized s.mem)
    (hgrant : ∀ size capacity, c = .allocate size capacity → env.grants capacity.toNat = true) :
    ∃ s', build env s c = (s', .ok (c.run env.junk s.mem).2) ∧ s'.Fits ∧ s'.mem = (c.run env.junk s.mem).1 ∧
      s.mem.Grows s'.mem ∧ (c.run env.junk s.mem).2.Fits s'.mem := by
  cases c with
  | share bs => exact ⟨_, rfl, h.push hc, rfl, .refl _, hc⟩
  | allocate size capacity =>
      have hgrows := grows_alloc env.junk s.mem capacity.toNat
      have hfits : ((Construct.allocate size capacity).run env.junk s.mem).2.Fits _ :=
        ⟨within_allocate _ env.junk hc.1 hc.2.1, hc.2.2⟩
      refine ⟨_, if_pos (hgrant size capacity rfl), ?_, rfl, hgrows, hfits⟩
      exact Table.Fits.push (h.setMem hgrows) hfits

theorem kept_buildResult (h : s.Fits) {c : Construct} (hc : c.Sized s.mem)
    (hgrant : ∀ size capacity, c = .allocate size capacity → env.grants capacity.toNat = true) :
    Kept s (buildResult env s c) := by
  obtain ⟨s', hbuild, hfits, -⟩ := build_ok env h hc hgrant
  rw [buildResult, hbuild]
  exact kept_ok hfits _

/-- The spans of a regex operation are parts of its subject. -/
def Value.Fits (m : Memory) : Value → Prop
  | .span bs => bs.Fits m
  | _ => True

theorem pushValues_fits {vs : List Value} (h : s.Fits) (hvs : ∀ v ∈ vs, v.Fits s.mem) : (pushValues s vs).1.Fits := by
  induction vs generalizing s with
  | nil => exact h
  | cons v vs ih =>
      have hrest : ∀ v ∈ vs, v.Fits s.mem := fun v hv => hvs v (List.mem_cons_of_mem _ hv)
      cases v with
      | span bs => exact ih (h.push (hvs _ List.mem_cons_self)) hrest
      | _ => exact ih h hrest

theorem kept_pushResults {x : Except Error (List Value)} (h : s.Fits) (hx : ∀ vs, x = .ok vs → ∀ v ∈ vs, v.Fits s.mem) :
    Kept s (pushResults s x) := by
  cases x with
  | error e => exact kept_error h e
  | ok vs => exact kept_ok (pushValues_fits h (hx vs rfl)) _

theorem view_sub_fits {v : View} (hv : ∀ bs, v = .window bs → bs.Fits s.mem) (x : Range (v.read s.mem).length) :
    (v.sub s.mem x).Fits s.mem := by
  cases v with
  | literal => trivial
  | window bs => exact sub_fits (hv bs rfl) x

theorem view_fits {x : Arg} {pos : Nat} {v : View} (hx : ∀ bs, x = .span bs → bs.Fits s.mem) (hv : x.view pos = .ok v) :
    ∀ bs, v = .window bs → bs.Fits s.mem := by
  rintro bs rfl
  cases x with
  | span bs' =>
      cases hv
      exact hx bs rfl
  | _ => cases hv

theorem regexMatch_fits {r : R} {x flags : Arg} {vs : List Value} (hx : ∀ bs, x = .span bs → bs.Fits s.mem)
    (h : regexMatch env.engine r s.mem x flags = .ok vs) : ∀ v ∈ vs, v.Fits s.mem := by
  obtain ⟨str, hstr, h⟩ := bind_ok h
  obtain ⟨n, -, h⟩ := bind_ok h
  have hfits := view_fits hx hstr
  split at h
  · cases h
    simp [Value.Fits]
  · split at h <;> cases h
    · simp [Value.Fits]
    · intro v hv
      obtain ⟨g, -, rfl⟩ := List.mem_map.mp hv
      cases g with
      | some y => exact view_sub_fits hfits y
      | none =>
          cases str with
          | literal => trivial
          | window bs => exact fits_null _

theorem regexSplit_fits {r : R} {x : Arg} {vs : List Value} (hx : ∀ bs, x = .span bs → bs.Fits s.mem)
    (h : regexSplit env.engine r s.mem x = .ok vs) : ∀ v ∈ vs, v.Fits s.mem := by
  obtain ⟨str, hstr, h⟩ := bind_ok h
  have hfits := view_fits hx hstr
  split at h <;> cases h
  intro v hv
  obtain ⟨y, -, rfl⟩ := List.mem_map.mp hv
  exact view_sub_fits hfits y

theorem regexPatsplit_fits {r : R} {x : Arg} {vs : List Value} (hx : ∀ bs, x = .span bs → bs.Fits s.mem)
    (h : regexPatsplit env.engine r s.mem x = .ok vs) : ∀ v ∈ vs, v.Fits s.mem := by
  obtain ⟨str, hstr, h⟩ := bind_ok h
  have hfits := view_fits hx hstr
  split at h
  · split at h <;> cases h
    · simp
    · intro v hv
      obtain ⟨y, -, rfl⟩ := List.mem_map.mp hv
      exact view_sub_fits hfits y
  · cases h

theorem exec_kept (h : s.Fits) (a : Action R) (hgrant : granted env s a) : Kept s (exec env s a) := by
  cases a with
  | new length capacity =>
      simp only [exec]
      split
      · rename_i c hc
        refine kept_buildResult h (new_sized hc) fun size capacity heq => hgrant _ ?_
        subst heq
        simp only [requests, hc]
      · exact kept_error h _
  | slice self start stop =>
      refine kept_withSelf h fun bs _ hbs => ?_
      split
      · rename_i bs' hslice
        obtain ⟨i, -, hslice⟩ := bind_ok hslice
        obtain ⟨j, -, hslice⟩ := bind_ok hslice
        exact kept_buildResult h (slice_fits hbs hslice) nofun
      · exact kept_error h _
  | copy self src =>
      refine kept_withSelf h fun bs _ hbs => ?_
      split
      · rename_i m count hcopy
        obtain ⟨v, -, hcopy⟩ := bind_ok hcopy
        have hm : m = (bs.copy s.mem v).1 := (congrArg Prod.fst (Except.ok.inj hcopy)).symm
        refine kept_ok (h.setMem ?_) _
        rw [hm]
        exact copy_grows hbs v
      · exact kept_error h _
  | append self args =>
      refine kept_withSelf h fun bs hself hbs => ?_
      split
      · exact kept_ok h _
      · split
        · exact kept_error h _
        · rename_i c tail happend
          obtain ⟨hsized, hroom⟩ := memberAppend_sized hbs happend
          obtain ⟨s', hbuild, hfits, -, -, hdst⟩ := build_ok env h hsized fun size capacity heq => hgrant _ (by
            subst heq
            simp only [requests, hself, happend])
          rw [hbuild]
          refine kept_ok (hfits.setMem ?_) _
          refine memberAppendWrites_grows hbs.size_nonneg hdst ?_
          rw [Construct.run_capacity]
          exact hroom
  | appendFree args =>
      simp only [exec]
      split
      · exact kept_error h _
      · rename_i c vs happend
        obtain ⟨hsized, hroom⟩ := nonMemberAppend_sized (m := s.mem) happend
        obtain ⟨s', hbuild, hfits, -, -, hdst⟩ := build_ok env h hsized fun size capacity heq => hgrant _ (by
          subst heq
          simp only [requests, happend])
        rw [hbuild]
        refine kept_ok (hfits.setMem (appendViews_grows fun p hp => ?_)) _
        obtain ⟨hlt, hin⟩ := hdst.inside p hp
        rw [Construct.run_capacity] at hin
        exact ⟨hlt, by omega⟩
  | startsWith self src | endsWith self src | search which self pat pos =>
      exact kept_withSelf h fun bs _ _ => kept_readOnly h _ _
  | trimmed self lws =>
      refine kept_withSelf h fun bs _ hbs => ?_
      split
      · rename_i bs' htrim
        obtain ⟨v, -, htrim⟩ := bind_ok htrim
        cases htrim
        exact kept_buildResult h (trimmed_fits hbs v) nofun
      · exact kept_error h _
  | regexMatch r subject flags =>
      exact kept_withRegex h fun r => kept_pushResults h fun vs => regexMatch_fits fun bs hbs => h.resolve hbs
  | regexSplit r subject =>
      exact kept_withRegex h fun r => kept_pushResults h fun vs => regexSplit_fits fun bs hbs => h.resolve hbs
  | regexPatsplit r subject =>
      exact kept_withRegex h fun r => kept_pushResults h fun vs => regexPatsplit_fits fun bs hbs => h.resolve hbs

theorem reachable_fits (hs : Reachable Initial (restrict (granted env) (Step env)) s) : s.Fits := by
  refine hs.invariant ?_ ?_
  · rintro s rfl
    exact nofun
  · rintro s a s' h ⟨hgrant, rfl⟩
    exact (exec_kept h a hgrant).1

/-- What is left of an operation that is refused its memory. -/
theorem exec_refused (h : s.Fits) {a : Action R} {n : Nat} (hn : requests s a = some n) (hgrant : env.grants n = false) :
    (exec env s a).1 = s.push .raw := by
  have hbuild : ∀ {size capacity : Int}, capacity.toNat = n →
      build env s (.allocate size capacity) = (s.push .raw, .error .badAlloc) := by
    intro size capacity heq
    simp only [build, heq, hgrant, Bool.false_eq_true, if_false]
  cases a with
  | new length capacity =>
      simp only [requests] at hn
      split at hn
      · rename_i size capacity hc
        simp only [exec, hc, buildResult, hbuild (Option.some.inj hn)]
      · cases hn
  | append self args =>
      simp only [requests] at hn
      split at hn
      · rename_i bs hself
        split at hn
        · rename_i size capacity tail happend
          have hargs : args.isEmpty = false := by
            cases args with
            | cons => rfl
            | nil =>
                -- a span that gets nothing appended is big enough
                have hle := (h.resolve hself).size_le
                simp only [byteSpanMemberAppend, List.map_nil, tailSlices, addSizes, bind, Except.bind, ge_iff_le, hle,
                  if_true] at happend
                split at happend <;> cases happend
          simp only [exec, withSelf, hself, hargs, Bool.false_eq_true, if_false, happend, hbuild (Option.some.inj hn)]
        · cases hn
      · cases hn
  | appendFree args =>
      simp only [requests] at hn
      split at hn
      · rename_i size capacity slices happend
        simp only [exec, happend, hbuild (Option.some.inj hn)]
      · cases hn
  | _ => cases hn

/-- No expression of `byte_span_slice` leaves the range of `lua_Integer`. -/
theorem slice_narrow (h : bs.Fits s.mem) (start stop : LuaInteger) {bs' : Span}
    (hs : bs.slice start.val stop.val = .ok bs') :
    intMin ≤ start.val - 1 ∧ (intMin ≤ bs.capacity - start.val ∧ bs.capacity - start.val + 1 ≤ intMax) ∧
      (intMin ≤ stop.val - start.val ∧ stop.val - start.val + 1 ≤ intMax) := by
  have hnarrow := h.narrow
  have hnonneg := h.size_nonneg
  have hle := h.size_le
  have hmin : intMin < -1 := by decide
  unfold Span.slice at hs
  split at hs
  · cases hs
  · omega

/-- Every span is a window of its allocation, as long as the allocator gives
what it is asked for; an operation that it refuses leaves a span that has not
been made. -/
theorem spans_fit (hs : Reachable Initial (restrict (granted env) (Step env)) s) :
    (∀ o ∈ s.objects, ∃ bs, o = .span bs ∧ 0 ≤ bs.size ∧ bs.size ≤ bs.capacity ∧ (bs.data = none → bs.capacity = 0) ∧
      ∀ p, bs.data = some p → p.block < s.mem.length ∧ p.offset + bs.capacity ≤ (s.mem.block p.block).length) ∧
    (∀ a e, granted env s a → (exec env s a).2 = .error e → (exec env s a).1 = s) ∧
    (∀ a, ¬ granted env s a → .raw ∈ (exec env s a).1.objects) := by
  have h := reachable_fits hs
  refine ⟨fun o ho => ?_, fun a e hgrant => (exec_kept h a hgrant).2 e, fun a hno => ?_⟩
  · obtain ⟨bs, rfl, hfits⟩ := h o ho
    exact ⟨bs, rfl, hfits.size_nonneg, hfits.size_le, hfits.null, hfits.inside⟩
  · unfold granted at hno
    push Not at hno
    obtain ⟨n, hn, hrefused⟩ := hno
    rw [exec_refused h hn (by simpa using hrefused)]
    simp [Table.push]

end

/-- What lies between the occurrences of `r`, from `pos` on. -/
def literalTokens (r s : List UInt8) : Nat → Nat → List (Range s.length)
  | 0, _ => []
  | fuel + 1, pos =>
      match find s r pos with
      | some i =>
          if h : pos ≤ i ∧ i ≤ s.length ∧ 0 < r.length then
            ⟨pos, i, h.1, h.2.1⟩ :: literalTokens r s fuel (i + r.length)
          else []
      | none => if h : pos < s.length then [⟨pos, s.length, Nat.le_of_lt h, le_rfl⟩] else []

/-- `std::regex` for patterns without special characters. -/
def literalEngine : Engine (List UInt8) where
  markCount _ := 0
  fullMatch r s _ := if s = r then some [] else none
  search r s it flags :=
    match find s r it with
    | some i =>
        if h : it ≤ i ∧ i + r.length ≤ s.length ∧ (flags.notNull = true → 0 < r.length) ∧
            (flags.continuous = true → i = it) then
          some ⟨i, i + r.length, Nat.le_add_right _ _, h.2.1⟩
        else none
    | none => none
  tokens r s := literalTokens r s (s.length + 1) 0
  search_from r s it flags x h := by
    split at h
    · split at h
      · rename_i hi
        cases h
        exact hi.1
      · cases h
    · cases h
  search_notNull r s it flags x h hnull := by
    split at h
    · split at h
      · rename_i hi
        cases h
        exact Nat.lt_add_of_pos_right (hi.2.2.1 hnull)
      · cases h
    · cases h

/-- An allocator with 2^46 bytes. -/
def smallEnv : Env (List UInt8) where
  junk _ _ := 0
  grants n := n ≤ 2 ^ 46
  engine := literalEngine

def luaInteger (n : Nat) (h : n < 2 ^ 63) : LuaInteger :=
  ⟨n, (by decide : intMin ≤ 0).trans (Int.natCast_nonneg n), by unfold intMax; omega⟩

/-- A span of 8 bytes gets `"a,b"`, is sliced and split at `","`. -/
def splitSlice : List (Action (List UInt8)) :=
  [.new (.number (luaInteger 8 (by decide))) .nil, .copy (.object 0) (.string [97, 44, 98]),
    .slice (.object 0) .nil (.number (luaInteger 3 (by decide))), .regexSplit (some [44]) (.object 1)]

theorem spans_fit_split :
    ∃ s, Reachable Initial (restrict (granted smallEnv) (Step smallEnv)) s ∧
      s.objects = [.span ⟨some ⟨0, 0⟩, 8, 8⟩, .span ⟨some ⟨0, 0⟩, 3, 8⟩, .span ⟨some ⟨0, 0⟩, 1, 8⟩,
        .span ⟨some ⟨0, 2⟩, 1, 6⟩] ∧
      ∀ o ∈ s.objects, ∃ bs, o = .span bs ∧ 0 ≤ bs.size ∧ bs.size ≤ bs.capacity ∧ (bs.data = none → bs.capacity = 0) ∧
        ∀ p, bs.data = some p → p.block < s.mem.length ∧ p.offset + bs.capacity ≤ (s.mem.block p.block).length := by
  have hrun : (runIf (fun s a => (.ok (exec smallEnv s a).1 : Except Unit Table))
      (fun s a => (requests s a).all smallEnv.grants) ⟨[], []⟩ splitSlice).map Table.objects =
        some [.span ⟨some ⟨0, 0⟩, 8, 8⟩, .span ⟨some ⟨0, 0⟩, 3, 8⟩, .span ⟨some ⟨0, 0⟩, 1, 8⟩,
          .span ⟨some ⟨0, 2⟩, 1, 6⟩] := by decide +kernel
  obtain ⟨s, hs, hobjects⟩ := Option.map_eq_some_iff.mp hrun
  have hreach := reachable_of_runIf ⟨_, initial_self, .refl⟩ hs
  have hstep : restrict (fun s a => ((requests s a).all smallEnv.grants) = true)
      (fun s a s' => (.ok (exec smallEnv s a).1 : Except Unit Table) = .ok s') = restrict (granted smallEnv) (Step smallEnv) := by
    funext s a s'
    simp only [restrict, granted, Step, Option.all_eq_true, Except.ok.injEq]
  rw [hstep] at hreach
  exact ⟨s, hreach, hobjects, (spans_fit hreach).1⟩

/-- `byte_span.new(2^62)`. -/
theorem refused_span_is_raw :
    ∃ s, Reachable Initial (Step smallEnv) s ∧ .raw ∈ s.objects :=
  ⟨_, ⟨_, rfl, .single ⟨.new (.number (luaInteger (2 ^ 62) (by decide))) .nil, rfl⟩⟩, by decide⟩

end Emilua.Bytes
