import Mathlib.Tactic

/-!
Blocks of memory that are handed out: aligned, in a range, and apart from each
other; what keeps a set of them so.
-/
namespace Blocks

/-- The least multiple of `align` from `n` on. -/
def roundUp (align n : Nat) : Nat := if n % align = 0 then n else n + (align - n % align)

section
variable {align n m : Nat}

theorem le_roundUp : n ≤ roundUp align n := by
  rw [roundUp]
  split
  · exact le_rfl
  · exact Nat.le_add_right _ _

theorem roundUp_eq (hpos : 0 < align) (hn : n % align ≠ 0) : roundUp align n = align * (n / align + 1) := by
  have hdiv := Nat.div_add_mod n align
  have hlt := Nat.mod_lt n hpos
  rw [roundUp, if_neg hn, Nat.mul_add, Nat.mul_one]
  omega

theorem dvd_roundUp (hpos : 0 < align) : align ∣ roundUp align n := by
  by_cases hn : n % align = 0
  · rw [roundUp, if_pos hn]
    exact Nat.dvd_of_mod_eq_zero hn
  · rw [roundUp_eq hpos hn]
    exact Nat.dvd_mul_right _ _

theorem roundUp_le_iff (hpos : 0 < align) (hm : align ∣ m) : roundUp align n ≤ m ↔ n ≤ m := by
  refine ⟨le_roundUp.trans, fun h => ?_⟩
  by_cases hn : n % align = 0
  · rwa [roundUp, if_pos hn]
  · obtain ⟨k, rfl⟩ := hm
    rw [roundUp_eq hpos hn]
    apply Nat.mul_le_mul_left
    rw [Nat.succ_le_iff, Nat.div_lt_iff_lt_mul hpos, Nat.mul_comm]
    refine lt_of_le_of_ne h ?_
    rintro rfl
    exact hn (Nat.mul_mod_right _ _)

end

structure Block where
  ptr : Nat
  size : Nat
  deriving DecidableEq

def Block.Apart (b c : Block) : Prop := b.ptr + b.size ≤ c.ptr ∨ c.ptr + c.size ≤ b.ptr

theorem Block.Apart.symm {b c : Block} (h : b.Apart c) : c.Apart b := Or.symm h

structure Laid (align lo hi : Nat) (bs : List Block) : Prop where
  aligned : ∀ b ∈ bs, align ∣ b.ptr
  inside : ∀ b ∈ bs, lo ≤ b.ptr ∧ b.ptr + b.size ≤ hi
  apart : bs.Pairwise Block.Apart

namespace Laid
variable {align lo hi hi' size : Nat} {bs : List Block} {b : Block}

theorem nil : Laid align lo hi [] := ⟨nofun, nofun, .nil⟩

theorem erase (h : Laid align lo hi bs) (b : Block) : Laid align lo hi (bs.erase b) where
  aligned c hc := h.aligned c (List.mem_of_mem_erase hc)
  inside c hc := h.inside c (List.mem_of_mem_erase hc)
  apart := h.apart.sublist List.erase_sublist

/-- A block that was laid is apart from the others. -/
theorem apart_erase (h : Laid align lo hi bs) (hb : b ∈ bs) : ∀ c ∈ bs.erase b, b.Apart c := by
  have hperm := List.perm_cons_erase hb
  have hpair := (hperm.pairwise_iff fun h => Block.Apart.symm h).mp h.apart
  exact (List.pairwise_cons.mp hpair).1

/-- A new block behind all others. -/
theorem apart_top (h : Laid align lo hi bs) (size : Nat) : ∀ c ∈ bs, (Block.mk hi size).Apart c :=
  fun c hc => .inr (h.inside c hc).2

theorem cons_top (h : Laid align lo hi bs) (halign : align ∣ hi) (hlo : lo ≤ hi) (hhi : hi + size ≤ hi') :
    Laid align lo hi' (⟨hi, size⟩ :: bs) where
  aligned := List.forall_mem_cons.mpr ⟨halign, h.aligned⟩
  inside := List.forall_mem_cons.mpr
    ⟨⟨hlo, hhi⟩, fun c hc => ⟨(h.inside c hc).1, (h.inside c hc).2.trans ((Nat.le_add_right _ _).trans hhi)⟩⟩
  apart := List.pairwise_cons.mpr ⟨h.apart_top size, h.apart⟩

/-- What is left at the start of a block. -/
theorem cons_prefix (h : Laid align lo hi bs) (hb : b ∈ bs) (hsize : size ≤ b.size) :
    Laid align lo hi (⟨b.ptr, size⟩ :: bs.erase b) where
  aligned := List.forall_mem_cons.mpr ⟨h.aligned b hb, (h.erase b).aligned⟩
  inside := List.forall_mem_cons.mpr
    ⟨⟨(h.inside b hb).1, (Nat.add_le_add_left hsize _).trans (h.inside b hb).2⟩, (h.erase b).inside⟩
  apart := by
    refine List.pairwise_cons.mpr ⟨fun c hc => ?_, (h.erase b).apart⟩
    rcases h.apart_erase hb c hc with hbefore | hafter
    · exact .inl ((Nat.add_le_add_left hsize _).trans hbefore)
    · exact .inr hafter

end Laid

end Blocks
