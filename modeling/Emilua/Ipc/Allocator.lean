import Emilua.Lib.Blocks
import Emilua.Lib.Transition

/-!
The allocator of the Lua state that runs the init script of an actor's process:
one buffer, of which blocks are cut off in order. Pointers and sizes are machine
words, whose arithmetic wraps; the blocks that the Lua state holds are kept
beside the allocator.
-/
namespace Emilua.Ipc.Alloc
open Blocks Transition

abbrev Word := UInt64

abbrev Memory := Word → UInt8

structure MonotonicAllocator where
  buffer : Word
  next : Word
  bufferSize : Word

/-- `memcpy` from memory as it is before the call. -/
def memcpy (mem : Memory) (dst src n : Word) : Memory :=
  fun p => if p - dst < n then mem (src + (p - dst)) else mem p

/-- The size with the padding to a multiple of `stepSize`. -/
def padded (stepSize nsize : Word) : Word :=
  let remainder := nsize % stepSize
  if remainder > 0 then nsize + (stepSize - remainder) else nsize

/-- `operator()`; `none` is the end of the process. -/
def MonotonicAllocator.call (stepSize : Word) (a : MonotonicAllocator) (mem : Memory) (ptr osize nsize : Word) :
    Option (Word × MonotonicAllocator × Memory) :=
  if nsize = 0 then some (0, a, mem)
  else if nsize < osize then some (ptr, a, mem)
  else
    let nsize := padded stepSize nsize
    if a.next + nsize > a.buffer + a.bufferSize then none
    else
      let ret := a.next
      some (ret, { a with next := a.next + nsize }, if ptr ≠ 0 then memcpy mem ret ptr osize else mem)

structure Request where
  ptr : Word
  osize : Word
  nsize : Word

/-- The request that `receive_with_fd` makes: its argument is an `int`. -/
def receiveWithFd (nbyte : Int32) : Request := ⟨0, 0, nbyte.toInt64.toUInt64⟩

def Request.block (r : Request) : Block := ⟨r.ptr.toNat, r.osize.toNat⟩

structure State where
  allocator : MonotonicAllocator
  memory : Memory
  /-- What the Lua state holds. -/
  live : List Block

/-- A request for a new block, or about one that is held, with its size. -/
def Request.Valid (s : State) (r : Request) : Prop := r.ptr = 0 ∨ r.block ∈ s.live

def State.others (s : State) (r : Request) : List Block := if r.ptr = 0 then s.live else s.live.erase r.block

def State.answer (s : State) (r : Request) (ret : Word) (a : MonotonicAllocator) (mem : Memory) : State where
  allocator := a
  memory := mem
  live := if ret = 0 then s.others r else ⟨ret.toNat, r.nsize.toNat⟩ :: s.others r

/-- What the allocator is made with: `malloc` gave the buffer. -/
structure Buffer where
  start : Word
  size : Word
  stepSize : Word
  step_pos : 0 < stepSize.toNat
  step_dvd : stepSize.toNat ∣ 2 ^ 64
  start_pos : 0 < start.toNat
  start_aligned : stepSize.toNat ∣ start.toNat
  size_aligned : stepSize.toNat ∣ size.toNat
  fits : start.toNat + size.toNat < 2 ^ 64

namespace Buffer
variable (B : Buffer)

def stop : Nat := B.start.toNat + B.size.toNat

def Initial (s : State) : Prop := s.allocator = ⟨B.start, B.start, B.size⟩ ∧ s.live = []

inductive Action where
  | request (r : Request)
  /-- Lua, or the code around it, writes to memory. -/
  | store (p : Word) (byte : UInt8)

def step (s : State) : Action → State → Prop
  | .request r, s' => r.Valid s ∧ ∃ ret a mem,
      s.allocator.call B.stepSize s.memory r.ptr r.osize r.nsize = some (ret, a, mem) ∧ s' = s.answer r ret a mem
  | .store p byte, s' => s' = { s with memory := Function.update s.memory p byte }

/-- The sum of the end of what is in use and of what is asked for is a word. -/
def NoWrap (s : State) : Action → Prop
  | .request r => r.nsize = 0 ∨ r.nsize < r.osize ∨
      s.allocator.next.toNat + roundUp B.stepSize.toNat r.nsize.toNat < 2 ^ 64
  | .store _ _ => True

end Buffer

/-- Neither to free a block nor to make it smaller. -/
def Request.NeedsRoom (r : Request) : Prop := r.nsize ≠ 0 ∧ ¬ r.nsize < r.osize

namespace Buffer
variable (B : Buffer)

def HasRoom (s : State) (r : Request) : Prop := s.allocator.next.toNat + r.nsize.toNat ≤ B.stop

/-- What a block that is returned has to be. -/
structure Returned (s : State) (r : Request) (ret : Word) (mem : Memory) : Prop where
  aligned : B.stepSize.toNat ∣ ret.toNat
  inside : B.start.toNat ≤ ret.toNat ∧ ret.toNat + r.nsize.toNat ≤ B.stop
  apart : ∀ b ∈ s.others r, (Block.mk ret.toNat r.nsize.toNat).Apart b
  kept : r.ptr ≠ 0 → ∀ i, i < r.osize → i < r.nsize → mem (ret + i) = s.memory (r.ptr + i)

/-- The allocator does for the request what it should. -/
def Sound (s : State) (r : Request) : Prop :=
  (s.allocator.call B.stepSize s.memory r.ptr r.osize r.nsize = none ↔ r.NeedsRoom ∧ ¬ B.HasRoom s r) ∧
  ∀ ret a mem, s.allocator.call B.stepSize s.memory r.ptr r.osize r.nsize = some (ret, a, mem) →
    s.allocator.next ≤ a.next ∧ (ret ≠ 0 → B.Returned s r ret mem)

structure Inv (s : State) : Prop where
  buffer : s.allocator.buffer = B.start
  bufferSize : s.allocator.bufferSize = B.size
  next_aligned : B.stepSize.toNat ∣ s.allocator.next.toNat
  next_inside : B.start.toNat ≤ s.allocator.next.toNat ∧ s.allocator.next.toNat ≤ B.stop
  laid : Laid B.stepSize.toNat B.start.toNat s.allocator.next.toNat s.live

variable {B} {s : State} {r : Request}

theorem stop_aligned : B.stepSize.toNat ∣ B.stop := Nat.dvd_add B.start_aligned B.size_aligned

theorem padded_toNat (n : Word) : (padded B.stepSize n).toNat = roundUp B.stepSize.toNat n.toNat % 2 ^ 64 := by
  have hmod : n.toNat % B.stepSize.toNat < B.stepSize.toNat := Nat.mod_lt _ B.step_pos
  have hrem : (n % B.stepSize).toNat = n.toNat % B.stepSize.toNat := UInt64.toNat_mod _ _
  rw [padded, roundUp]
  by_cases hzero : n.toNat % B.stepSize.toNat = 0
  · rw [if_neg, if_pos hzero, Nat.mod_eq_of_lt n.toNat_lt]
    rw [gt_iff_lt, UInt64.lt_iff_toNat_lt, hrem, hzero]
    exact Nat.lt_irrefl 0
  · have hle : n % B.stepSize ≤ B.stepSize := by
      rw [UInt64.le_iff_toNat_le, hrem]
      exact hmod.le
    rw [if_pos, if_neg hzero, UInt64.toNat_add, UInt64.toNat_sub_of_le _ _ hle, hrem]
    rw [gt_iff_lt, UInt64.lt_iff_toNat_lt, hrem]
    exact Nat.pos_of_ne_zero hzero

theorem next_padded_toNat (s : State) (n : Word) : (s.allocator.next + padded B.stepSize n).toNat =
    (s.allocator.next.toNat + roundUp B.stepSize.toNat n.toNat) % 2 ^ 64 := by
  rw [UInt64.toNat_add, padded_toNat, Nat.add_mod_mod]

theorem Inv.stop_toNat (h : B.Inv s) : (s.allocator.buffer + s.allocator.bufferSize).toNat = B.stop := by
  rw [h.buffer, h.bufferSize, UInt64.toNat_add, Nat.mod_eq_of_lt B.fits, stop]

/-- What the calls that are answered do. -/
theorem call_cases {ret : Word} {a : MonotonicAllocator} {mem : Memory}
    (h : s.allocator.call B.stepSize s.memory r.ptr r.osize r.nsize = some (ret, a, mem)) :
    (r.nsize = 0 ∧ ret = 0 ∧ a = s.allocator ∧ mem = s.memory) ∨
    (r.nsize < r.osize ∧ ret = r.ptr ∧ a = s.allocator ∧ mem = s.memory) ∨
    (r.NeedsRoom ∧ ret = s.allocator.next ∧ a = { s.allocator with next := s.allocator.next + padded B.stepSize r.nsize } ∧
      mem = if r.ptr ≠ 0 then memcpy s.memory ret r.ptr r.osize else s.memory) := by
  rw [MonotonicAllocator.call] at h
  split at h
  · rename_i hzero
    cases h
    exact .inl ⟨hzero, rfl, rfl, rfl⟩
  · rename_i hzero
    split at h
    · rename_i hless
      cases h
      exact .inr (.inl ⟨hless, rfl, rfl, rfl⟩)
    · rename_i hless
      dsimp only at h
      by_cases hover : s.allocator.next + padded B.stepSize r.nsize > s.allocator.buffer + s.allocator.bufferSize
      · rw [if_pos hover] at h
        cases h
      · rw [if_neg hover] at h
        cases h
        exact .inr (.inr ⟨⟨hzero, hless⟩, rfl, rfl, rfl⟩)

theorem call_none_iff (h : B.Inv s) : s.allocator.call B.stepSize s.memory r.ptr r.osize r.nsize = none ↔
    r.NeedsRoom ∧ B.stop < (s.allocator.next.toNat + roundUp B.stepSize.toNat r.nsize.toNat) % 2 ^ 64 := by
  rw [MonotonicAllocator.call, Request.NeedsRoom]
  by_cases hzero : r.nsize = 0
  · rw [if_pos hzero]
    exact iff_of_false nofun fun h => h.1.1 hzero
  rw [if_neg hzero]
  by_cases hless : r.nsize < r.osize
  · rw [if_pos hless]
    exact iff_of_false nofun fun h => h.1.2 hless
  rw [if_neg hless, ← next_padded_toNat, ← h.stop_toNat, ← UInt64.lt_iff_toNat_lt]
  simp only [hzero, hless, not_false_eq_true, ne_eq, and_self, true_and]
  split
  · rename_i hover
    exact iff_of_true rfl hover
  · rename_i hover
    exact iff_of_false nofun hover

theorem hasRoom_iff (h : B.Inv s) : B.HasRoom s r ↔
    s.allocator.next.toNat + roundUp B.stepSize.toNat r.nsize.toNat ≤ B.stop := by
  have hle := h.next_inside.2
  have hdvd : B.stepSize.toNat ∣ B.stop - s.allocator.next.toNat := Nat.dvd_sub stop_aligned h.next_aligned
  have hround := roundUp_le_iff (n := r.nsize.toNat) B.step_pos hdvd
  rw [HasRoom]
  omega

/-- Where the sum wraps, the test for the end of the buffer does not see it. -/
theorem noWrap_of_sound (h : B.Inv s) (hsound : B.Sound s r) : B.NoWrap s (.request r) := by
  rw [NoWrap]
  by_contra hwrap
  rw [not_or, not_or] at hwrap
  obtain ⟨hzero, hless, hwrap⟩ := hwrap
  have hfits := B.fits
  have hle := h.next_inside.2
  have hroom : ¬ B.HasRoom s r := by
    rw [hasRoom_iff h, stop]
    omega
  have hnone := hsound.1.mpr ⟨⟨hzero, hless⟩, hroom⟩
  rw [call_none_iff h] at hnone
  have hround := (roundUp_le_iff B.step_pos B.step_dvd).mpr r.nsize.toNat_lt.le
  unfold stop at hnone hle
  omega

/-- A request whose sum does not wrap and that is answered has room. -/
theorem advance (h : B.Inv s) (hneeds : r.NeedsRoom) (hwrap : B.NoWrap s (.request r))
    (hcall : s.allocator.call B.stepSize s.memory r.ptr r.osize r.nsize ≠ none) :
    (s.allocator.next + padded B.stepSize r.nsize).toNat =
        s.allocator.next.toNat + roundUp B.stepSize.toNat r.nsize.toNat ∧
      s.allocator.next.toNat + roundUp B.stepSize.toNat r.nsize.toNat ≤ B.stop := by
  have hsum : s.allocator.next.toNat + roundUp B.stepSize.toNat r.nsize.toNat < 2 ^ 64 :=
    (hwrap.resolve_left hneeds.1).resolve_left hneeds.2
  rw [ne_eq, call_none_iff h, not_and, not_lt] at hcall
  have hle := hcall hneeds
  rw [Nat.mod_eq_of_lt hsum] at hle
  exact ⟨by rw [next_padded_toNat, Nat.mod_eq_of_lt hsum], hle⟩

theorem ptr_ne_zero (h : B.Inv s) (hr : r.block ∈ s.live) : r.ptr ≠ 0 := by
  intro hzero
  have hlo := (h.laid.inside _ hr).1
  have hpos := B.start_pos
  rw [Request.block, hzero] at hlo
  exact absurd (hpos.trans_le hlo) (Nat.lt_irrefl 0)

theorem others_eq (h : B.Inv s) (hr : r.block ∈ s.live) : s.others r = s.live.erase r.block :=
  if_neg (ptr_ne_zero h hr)

theorem others_laid (h : B.Inv s) (r : Request) :
    Laid B.stepSize.toNat B.start.toNat s.allocator.next.toNat (s.others r) := by
  rw [State.others]
  split
  · exact h.laid
  · exact h.laid.erase _

theorem next_ne_zero (h : B.Inv s) : s.allocator.next ≠ 0 := by
  intro hzero
  have hlo := h.next_inside.1
  have hpos := B.start_pos
  rw [hzero] at hlo
  exact absurd (hpos.trans_le hlo) (Nat.lt_irrefl 0)

theorem memcpy_apply {mem : Memory} {dst src n i : Word} (hi : i < n) : memcpy mem dst src n (dst + i) = mem (src + i) := by
  have hsub : dst + i - dst = i := by rw [UInt64.add_comm, UInt64.add_sub_cancel]
  rw [memcpy, hsub, if_pos hi]

theorem sound_of_noWrap (h : B.Inv s) (hr : r.Valid s) (hwrap : B.NoWrap s (.request r)) : B.Sound s r := by
  constructor
  · rw [call_none_iff h, hasRoom_iff h]
    refine and_congr_right fun hneeds => ?_
    have hsum : s.allocator.next.toNat + roundUp B.stepSize.toNat r.nsize.toNat < 2 ^ 64 :=
      (hwrap.resolve_left hneeds.1).resolve_left hneeds.2
    rw [Nat.mod_eq_of_lt hsum, not_le]
  · intro ret a mem hcall
    obtain ⟨-, rfl, rfl, -⟩ | ⟨hless, rfl, rfl, rfl⟩ | ⟨hneeds, rfl, rfl, rfl⟩ := call_cases hcall
    · exact ⟨UInt64.le_refl _, fun hne => absurd rfl hne⟩
    · refine ⟨UInt64.le_refl _, fun hne => ?_⟩
      have hlive : r.block ∈ s.live := hr.resolve_left hne
      have hsize : r.nsize.toNat ≤ r.osize.toNat := (UInt64.lt_iff_toNat_lt.mp hless).le
      have hlaid := h.laid.cons_prefix hlive hsize
      refine ⟨hlaid.aligned _ (List.mem_cons_self ..), ?_, ?_, fun _ i _ _ => rfl⟩
      · have hinside := hlaid.inside _ (List.mem_cons_self ..)
        exact ⟨hinside.1, hinside.2.trans h.next_inside.2⟩
      · rw [others_eq h hlive]
        exact (List.pairwise_cons.mp hlaid.apart).1
    · obtain ⟨hnext, hle⟩ := advance h hneeds hwrap (by rw [hcall]; nofun)
      have hround : r.nsize.toNat ≤ roundUp B.stepSize.toNat r.nsize.toNat := le_roundUp
      refine ⟨?_, fun _ => ⟨h.next_aligned, ⟨h.next_inside.1, by omega⟩, (others_laid h r).apart_top _, ?_⟩⟩
      · rw [UInt64.le_iff_toNat_le, hnext]
        exact Nat.le_add_right _ _
      · intro hptr i hi _
        rw [if_pos hptr, memcpy_apply hi]

theorem inv_initial (hs : B.Initial s) : B.Inv s := by
  obtain ⟨hallocator, hlive⟩ := hs
  refine ⟨by rw [hallocator], by rw [hallocator], ?_, ?_, ?_⟩
  · rw [hallocator]
    exact B.start_aligned
  · rw [hallocator]
    exact ⟨Nat.le_refl _, Nat.le_add_right _ _⟩
  · rw [hlive]
    exact .nil

theorem inv_step {action : Action} {s' : State} (h : B.Inv s) (hwrap : B.NoWrap s action) (hstep : B.step s action s') :
    B.Inv s' := by
  cases action with
  | store p byte =>
      obtain rfl : s' = _ := hstep
      exact ⟨h.buffer, h.bufferSize, h.next_aligned, h.next_inside, h.laid⟩
  | request r =>
      obtain ⟨hr, ret, a, mem, hcall, rfl⟩ := hstep
      obtain ⟨-, rfl, rfl, -⟩ | ⟨hless, rfl, rfl, -⟩ | ⟨hneeds, rfl, rfl, -⟩ := call_cases hcall
      · refine ⟨h.buffer, h.bufferSize, h.next_aligned, h.next_inside, ?_⟩
        rw [State.answer, if_pos rfl]
        exact others_laid h r
      · refine ⟨h.buffer, h.bufferSize, h.next_aligned, h.next_inside, ?_⟩
        rw [State.answer]
        by_cases hptr : r.ptr = 0
        · rw [if_pos hptr]
          exact others_laid h r
        · have hlive : r.block ∈ s.live := hr.resolve_left hptr
          rw [if_neg hptr, others_eq h hlive]
          exact h.laid.cons_prefix hlive (UInt64.lt_iff_toNat_lt.mp hless).le
      · obtain ⟨hnext, hle⟩ := advance h hneeds hwrap (by rw [hcall]; nofun)
        have hlo := h.next_inside.1
        have hround : r.nsize.toNat ≤ roundUp B.stepSize.toNat r.nsize.toNat := le_roundUp
        refine ⟨h.buffer, h.bufferSize, ?_, ?_, ?_⟩
        · change B.stepSize.toNat ∣ (s.allocator.next + padded B.stepSize r.nsize).toNat
          rw [hnext]
          exact Nat.dvd_add h.next_aligned (dvd_roundUp B.step_pos)
        · change _ ≤ (s.allocator.next + padded B.stepSize r.nsize).toNat ∧
            (s.allocator.next + padded B.stepSize r.nsize).toNat ≤ _
          rw [hnext]
          exact ⟨by omega, hle⟩
        · rw [State.answer, if_neg (next_ne_zero h)]
          apply (others_laid h r).cons_top h.next_aligned h.next_inside.1
          change _ ≤ (s.allocator.next + padded B.stepSize r.nsize).toNat
          rw [hnext]
          exact Nat.add_le_add_left hround _

/-- As long as the sums have not wrapped, the blocks that are held are aligned, in
the buffer and apart, and the allocator does for a request what it should exactly
if its sum does not wrap. -/
theorem sound_iff (hs : Reachable B.Initial (restrict B.NoWrap B.step) s) (hr : r.Valid s) :
    Laid B.stepSize.toNat B.start.toNat s.allocator.next.toNat s.live ∧ s.allocator.next.toNat ≤ B.stop ∧
      (B.Sound s r ↔ B.NoWrap s (.request r)) := by
  have h : B.Inv s := hs.invariant (fun _ => inv_initial) fun _ _ _ h hstep => inv_step h hstep.1 hstep.2
  exact ⟨h.laid, h.next_inside.2, noWrap_of_sound h, sound_of_noWrap h hr⟩

end Buffer

/-- A buffer of the size that the process has, aligned for every type. -/
def hookBuffer : Buffer where
  start := 0x10000
  size := 1024 * 1024
  stepSize := 16
  step_pos := by decide
  step_dvd := by decide
  start_pos := by decide
  start_aligned := by decide
  size_aligned := by decide
  fits := by decide

def emptyState : State := ⟨⟨0x10000, 0x10000, 1024 * 1024⟩, fun _ => 0, []⟩

theorem emptyState_reachable :
    Reachable hookBuffer.Initial (restrict hookBuffer.NoWrap hookBuffer.step) emptyState :=
  ⟨emptyState, ⟨rfl, rfl⟩, .refl⟩

theorem sound_iff_small : hookBuffer.Sound emptyState ⟨0, 0, 24⟩ ↔ hookBuffer.NoWrap emptyState (.request ⟨0, 0, 24⟩) :=
  (Buffer.sound_iff emptyState_reachable (.inl rfl)).2.2

/-- `receive_with_fd(fd, -16)` moves `next` back, and the block that was there is
given out again. -/
theorem negative_size_overlaps : ∃ s1 s2 s3,
    hookBuffer.step emptyState (.request ⟨0, 0, 16⟩) s1 ∧ s1.allocator.next = 0x10010 ∧
    hookBuffer.step s1 (.request (receiveWithFd (-16))) s2 ∧ s2.allocator.next = 0x10000 ∧
    hookBuffer.step s2 (.request ⟨0, 0, 16⟩) s3 ∧
    s3.live = [⟨0x10000, 16⟩, ⟨0x10010, 2 ^ 64 - 16⟩, ⟨0x10000, 16⟩] :=
  ⟨_, _, _, ⟨.inl rfl, _, _, _, rfl, rfl⟩, rfl, ⟨.inl rfl, _, _, _, rfl, rfl⟩, rfl, ⟨.inl rfl, _, _, _, rfl, rfl⟩, rfl⟩

end Emilua.Ipc.Alloc
