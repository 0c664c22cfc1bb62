import Emilua.Lib.Varargs

/-!
What the functions that take the place of `pcall`, `xpcall`, `coroutine.create`,
`coroutine.resume` and `coroutine.wrap`, and the one around the native `join`, do
with arguments and results. Each of them packs a list into a table, and unpacks the
table without its length.
-/
namespace Emilua.Shim
open Varargs

inductive Errc where
  | interrupted
  | invalidArgument
  | resourceDeadlockWouldOccur
  | operationNotPermitted
  | other (n : Nat)
deriving DecidableEq, Repr

inductive Value (α : Type) where
  | nil
  | bool (b : Bool)
  | errc (e : Errc)
  | other (a : α)
deriving DecidableEq, Repr

inductive Outcome (α : Type) where
  | returned (rs : List (Value α))
  | raised (e : Value α)
deriving DecidableEq, Repr

/-- What a function is called with, and what its caller gets. -/
structure Call (α : Type) where
  given : List (Value α)
  back : Outcome α
deriving DecidableEq, Repr

variable {α : Type}

abbrev Callee (α : Type) := List (Value α) → Outcome α

/-- The results of the plain `pcall` and of the plain `coroutine.resume`. -/
def status : Outcome α → List (Value α)
  | .returned rs => .bool true :: rs
  | .raised e => [.bool false, e]

/-- The error handler of `xpcall`. -/
def Outcome.handled (err : Value α → Value α) : Outcome α → Outcome α
  | .returned rs => .returned rs
  | .raised e => .raised (err e)

section
variable (L : Length (.nil : Value α))

def truthy : Value α → Bool
  | .nil | .bool false => false
  | _ => true

/-- `ret` has the results of a protected call. -/
def rethrow (ret : List (Value α)) : Outcome α :=
  match index .nil ret 1 with
  | .bool false => .raised (index .nil ret 2)
  | _ => .returned (L.tail ret)

def pcall (f : Callee α) (args : List (Value α)) : Call α :=
  let ret := status (f args)
  ⟨args, .returned (L.all ret)⟩

def xpcall (f : Callee α) (err : Value α → Value α) (args : List (Value α)) : Call α :=
  let ret := status ((f args).handled err)
  ⟨args, .returned (L.all ret)⟩

/-- The body of a coroutine that has been made of `f`. The error handler gives the
error back. -/
def coroutineCreate (f : Callee α) (args : List (Value α)) : Call α :=
  let given := L.all args
  let ret := status <| match f given with
    | .returned rs => .returned (L.all rs)
    | .raised e => .raised e
  ⟨given, rethrow L ret⟩

/-- `co` answers with what it yields or returns, or with an error. -/
def coroutineResume (co : Callee α) (args : List (Value α)) : Call α :=
  let given := L.all args
  ⟨given, .returned (L.all (status (co given)))⟩

/-- A coroutine that is suspended by a native function has yielded `vs` to the
runtime, whose answer is given to the coroutine. -/
def coroutineSuspend (runtime : Callee α) (vs : List (Value α)) : Call α :=
  let given := L.tail (.bool true :: vs)
  ⟨given, match runtime given with
    | .returned args => .returned (L.all args)
    | .raised e => .raised e⟩

def coroutineWrap (co : Callee α) (args : List (Value α)) : Call α :=
  let call := coroutineResume L co args
  ⟨call.given, match call.back with
    | .returned ret => rethrow L ret
    | .raised e => .raised e⟩

/-- The function around the native `join`. -/
def fiberJoin (native : Callee α) (args : List (Value α)) : Outcome α :=
  match native args with
  | .returned args => if truthy (index .nil args 1) then .returned (L.tail args) else .raised (index .nil args 2)
  | .raised e => .raised e

end

/-! When nothing is lost. -/

inductive Forwarder where
  | pcall
  | xpcall
  | create
  | resume
  | suspend
  | wrap
  | join
deriving DecidableEq, Repr

namespace Forwarder
variable (L : Length (.nil : Value α)) (err : Value α → Value α)

/-- The function of the runtime. A fiber that ends gives the native `join` its
status. -/
def call : Forwarder → Callee α → List (Value α) → Call α
  | .pcall, f, args => Shim.pcall L f args
  | .xpcall, f, args => Shim.xpcall L f err args
  | .create, f, args => coroutineCreate L f args
  | .resume, f, args => coroutineResume L f args
  | .suspend, f, args => coroutineSuspend L f args
  | .wrap, f, args => coroutineWrap L f args
  | .join, f, args => ⟨args, fiberJoin L (fun args => .returned (status (f args))) args⟩

/-- The function of Lua that it takes the place of. -/
def plain : Forwarder → Callee α → List (Value α) → Call α
  | .pcall, f, args | .resume, f, args => ⟨args, .returned (status (f args))⟩
  | .xpcall, f, args => ⟨args, .returned (status ((f args).handled err))⟩
  | .create, f, args | .suspend, f, args | .wrap, f, args | .join, f, args => ⟨args, f args⟩

/-- Each list that is packed is found whole. -/
def Found : Forwarder → Callee α → List (Value α) → Prop
  | .pcall, f, args => L.Whole (status (f args))
  | .xpcall, f, args => L.Whole (status ((f args).handled err))
  | .create, f, args => L.Whole args ∧ ∀ rs, f args = .returned rs → L.Whole rs ∧ L.Whole (.bool true :: rs)
  | .resume, f, args => L.Whole args ∧ L.Whole (status (f args))
  | .suspend, f, args => L.Whole (.bool true :: args) ∧ ∀ rs, f args = .returned rs → L.Whole rs
  | .wrap, f, args => L.Whole args ∧ ∀ rs, f args = .returned rs → L.Whole (.bool true :: rs)
  | .join, f, args => ∀ rs, f args = .returned rs → L.Whole (.bool true :: rs)

end Forwarder

section
variable {L : Length (.nil : Value α)} {err : Value α → Value α} {f : Callee α} {args rs : List (Value α)} {e : Value α}

theorem rethrow_true : rethrow L (.bool true :: rs) = .returned (L.tail (.bool true :: rs)) := rfl

theorem rethrow_false : rethrow L [.bool false, e] = .raised e := rfl

/-- An error that is cut off was null. -/
theorem rethrow_all_false : rethrow L (L.all [.bool false, e]) = .raised e := by
  have hpos := L.len_cons_pos (x := .bool false) nofun [e]
  have hborder := L.border [.bool false, e]
  have hle := hborder.le
  rw [L.all_eq]
  generalize L.len [.bool false, e] = n at hpos hborder hle
  match n with
  | 0 => exact absurd hpos (Nat.lt_irrefl 0)
  | 1 =>
      have he : e = .nil := hborder.2
      rw [he]
      rfl
  | 2 => rfl
  | n + 3 =>
      simp only [List.length_cons, List.length_nil] at hle
      omega

theorem rethrow_all_true : rethrow L (L.all (.bool true :: rs)) = .returned (L.tail (L.all (.bool true :: rs))) := by
  have hpos := L.len_cons_pos (x := .bool true) nofun rs
  rw [L.all_eq]
  obtain ⟨m, hm⟩ : ∃ m, L.len (.bool true :: rs) = m + 1 := ⟨_, (Nat.succ_pred_eq_of_pos hpos).symm⟩
  rw [hm, List.take_succ_cons]
  exact rethrow_true

theorem tail_true_iff : L.tail (.bool true :: rs) = rs ↔ L.Whole (.bool true :: rs) :=
  L.tail_cons_eq_self_iff (x := .bool true) nofun

theorem tail_length_le (x : Value α) (hx : x ≠ .nil) (xs : List (Value α)) : (L.tail (x :: xs)).length ≤ xs.length := by
  rw [L.tail_cons hx, List.length_take]
  exact Nat.min_le_right ..

theorem all_eq_of_length_le {xs : List (Value α)} (h : xs.length ≤ (L.all xs).length) : L.all xs = xs := by
  rw [L.all_eq] at h ⊢
  rw [List.length_take] at h
  exact List.take_of_length_le (by omega)

/-- Results that are packed once more behind their status. -/
theorem tail_true_all_iff : L.tail (.bool true :: L.all rs) = rs ↔ L.Whole rs ∧ L.Whole (.bool true :: rs) := by
  constructor
  · intro h
    have hall : L.all rs = rs := by
      refine all_eq_of_length_le ?_
      have hle := tail_length_le (L := L) (.bool true) nofun (L.all rs)
      rw [h] at hle
      exact hle
    rw [hall] at h
    exact ⟨L.all_eq_self_iff.mp hall, tail_true_iff.mp h⟩
  · rintro ⟨hwhole, hstatus⟩
    rw [L.all_eq_self_iff.mpr hwhole]
    exact tail_true_iff.mpr hstatus

/-- A status that is packed with its results once more. -/
theorem tail_all_true_iff : L.tail (L.all (.bool true :: rs)) = rs ↔ L.Whole (.bool true :: rs) := by
  constructor
  · intro h
    refine L.all_eq_self_iff.mp (all_eq_of_length_le ?_)
    have hpos := L.len_cons_pos (x := .bool true) nofun rs
    rw [L.all_eq] at h ⊢
    obtain ⟨m, hm⟩ : ∃ m, L.len (.bool true :: rs) = m + 1 := ⟨_, (Nat.succ_pred_eq_of_pos hpos).symm⟩
    rw [hm, List.take_succ_cons] at h ⊢
    have hle := tail_length_le (L := L) (.bool true) nofun (rs.take m)
    rw [h] at hle
    simpa using hle
  · intro h
    rw [L.all_eq_self_iff.mpr h]
    exact tail_true_iff.mpr h

end

namespace Forwarder
variable (L : Length (.nil : Value α)) (err : Value α → Value α)

/-- Arguments that are packed reach the callee when they are found whole. -/
theorem call_eq_iff_of_given {given args : List (Value α)} {back : Outcome α} {plain : Outcome α} {P Q : Prop}
    (hgiven : given = args ↔ P) (hback : given = args → (back = plain ↔ Q)) :
    (⟨given, back⟩ : Call α) = ⟨args, plain⟩ ↔ P ∧ Q := by
  rw [Call.mk.injEq]
  constructor
  · rintro ⟨hg, hb⟩
    exact ⟨hgiven.mp hg, (hback hg).mp hb⟩
  · rintro ⟨hp, hq⟩
    have hg := hgiven.mpr hp
    exact ⟨hg, (hback hg).mpr hq⟩

theorem forwards_iff (shim : Forwarder) (f : Callee α) (args : List (Value α)) :
    shim.call L err f args = shim.plain err f args ↔ shim.Found L err f args := by
  cases shim with
  | pcall =>
      simp only [call, plain, Found, Shim.pcall, Call.mk.injEq, true_and, Outcome.returned.injEq]
      exact L.all_eq_self_iff
  | xpcall =>
      simp only [call, plain, Found, Shim.xpcall, Call.mk.injEq, true_and, Outcome.returned.injEq]
      exact L.all_eq_self_iff
  | create =>
      refine call_eq_iff_of_given L.all_eq_self_iff fun hgiven => ?_
      rw [hgiven]
      cases hf : f args with
      | returned rs =>
          simp only [status, rethrow_true, Outcome.returned.injEq, tail_true_all_iff]
          exact ⟨fun h rs' heq => heq ▸ h, fun h => h rs rfl⟩
      | raised e => exact iff_of_true rethrow_false nofun
  | resume =>
      refine call_eq_iff_of_given L.all_eq_self_iff fun hgiven => ?_
      rw [hgiven, Outcome.returned.injEq]
      exact L.all_eq_self_iff
  | suspend =>
      refine call_eq_iff_of_given tail_true_iff fun hgiven => ?_
      rw [hgiven]
      cases hf : f args with
      | returned rs =>
          simp only [Outcome.returned.injEq, L.all_eq_self_iff]
          exact ⟨fun h rs' heq => heq ▸ h, fun h => h rs rfl⟩
      | raised e => exact iff_of_true rfl nofun
  | wrap =>
      refine call_eq_iff_of_given L.all_eq_self_iff fun hgiven => ?_
      have hgiven : L.all args = args := hgiven
      change rethrow L (L.all (status (f (L.all args)))) = f args ↔ _
      rw [hgiven]
      cases hf : f args with
      | returned rs =>
          simp only [status, rethrow_all_true, Outcome.returned.injEq, tail_all_true_iff]
          exact ⟨fun h rs' heq => heq ▸ h, fun h => h rs rfl⟩
      | raised e => exact iff_of_true rethrow_all_false nofun
  | join =>
      simp only [call, plain, Found, fiberJoin, Call.mk.injEq, true_and]
      cases hf : f args with
      | returned rs =>
          change Outcome.returned (L.tail (.bool true :: rs)) = .returned rs ↔ _
          rw [Outcome.returned.injEq, tail_true_iff]
          exact ⟨fun h rs' heq => Outcome.returned.inj heq ▸ h, fun h => h rs rfl⟩
      | raised e => exact iff_of_true rfl nofun

/-- Lists without nulls are found whole. -/
theorem found_of_not_mem (shim : Forwarder) {f : Callee α} {args : List (Value α)} (hargs : .nil ∉ args)
    (hreturned : ∀ rs, f args = .returned rs → .nil ∉ rs)
    (hraised : ∀ e, f args = .raised e → e ≠ .nil ∧ err e ≠ .nil) : shim.Found L err f args := by
  have hcons : ∀ rs, f args = .returned rs → L.Whole (.bool true :: rs) := by
    intro rs hrs
    refine L.whole_of_not_mem fun hin => ?_
    exact hreturned rs hrs ((List.mem_cons.mp hin).resolve_left nofun)
  have herror : ∀ e : Value α, e ≠ .nil → L.Whole [.bool false, e] := by
    intro e he
    refine L.whole_of_not_mem fun hin => ?_
    exact he (List.mem_singleton.mp ((List.mem_cons.mp hin).resolve_left nofun)).symm
  have hstatus : L.Whole (status (f args)) ∧ L.Whole (status ((f args).handled err)) := by
    cases hf : f args with
    | returned rs => exact ⟨hcons rs hf, hcons rs hf⟩
    | raised e => exact ⟨herror e (hraised e hf).1, herror _ (hraised e hf).2⟩
  have hwhole := L.whole_of_not_mem hargs
  have hresults : ∀ rs, f args = .returned rs → L.Whole rs := fun rs hrs => L.whole_of_not_mem (hreturned rs hrs)
  cases shim with
  | pcall => exact hstatus.1
  | xpcall => exact hstatus.2
  | create => exact ⟨hwhole, fun rs hrs => ⟨hresults rs hrs, hcons rs hrs⟩⟩
  | resume => exact ⟨hwhole, hstatus.1⟩
  | suspend =>
      refine ⟨L.whole_of_not_mem fun hin => ?_, hresults⟩
      exact hargs ((List.mem_cons.mp hin).resolve_left nofun)
  | wrap => exact ⟨hwhole, hcons⟩
  | join => exact hcons

end Forwarder

/-- A function that returns a null returns nothing through `pcall`, whatever border
the length operator finds. -/
theorem pcall_loses_nil : ¬ ∃ L : Length (.nil : Value Nat),
    Forwarder.pcall.call L id (fun _ => .returned [.nil]) [] =
      Forwarder.pcall.plain id (fun _ => .returned [.nil]) [] := by
  intro hwhole
  obtain ⟨L, h⟩ := hwhole
  simp only [Forwarder.call, Forwarder.plain, pcall, Call.mk.injEq, true_and, Outcome.returned.injEq] at h
  exact L.not_whole_append_nil [.bool true] (L.all_eq_self_iff.mp h)

end Emilua.Shim
