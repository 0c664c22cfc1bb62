import Emilua.Bytes.Span

/-!
What the bytes of a span are after a slice, a copy or a write. A span is looked
at through its window, all the bytes it has room for.
-/
namespace Emilua.Bytes

/-- Every allocation of `m` is there in `m'`, with the same length. -/
structure Memory.Grows (m m' : Memory) : Prop where
  length_le : m.length ≤ m'.length
  blocks : ∀ i < m.length, (m'.block i).length = (m.block i).length

/-- The window of a span lies inside its allocation. -/
structure Span.Within (m : Memory) (bs : Span) : Prop where
  size_nonneg : 0 ≤ bs.size
  size_le : bs.size ≤ bs.capacity
  null : bs.data = none → bs.capacity = 0
  inside : ∀ p, bs.data = some p → p.block < m.length ∧ p.offset + bs.capacity ≤ (m.block p.block).length

def Span.window (m : Memory) (bs : Span) : List UInt8 := m.read bs.data bs.capacity.toNat

section
variable {m m' m'' : Memory} {bs bs' : Span}

theorem Memory.Grows.refl (m : Memory) : m.Grows m := ⟨le_rfl, fun _ _ => rfl⟩

theorem Memory.Grows.trans (h : m.Grows m') (h' : m'.Grows m'') : m.Grows m'' where
  length_le := h.length_le.trans h'.length_le
  blocks i hi := (h'.blocks i (Nat.lt_of_lt_of_le hi h.length_le)).trans (h.blocks i hi)

theorem Span.Within.grow (h : bs.Within m) (hm : m.Grows m') : bs.Within m' where
  size_nonneg := h.size_nonneg
  size_le := h.size_le
  null := h.null
  inside p hp := by
    obtain ⟨hlt, hin⟩ := h.inside p hp
    rw [hm.blocks _ hlt]
    exact ⟨Nat.lt_of_lt_of_le hlt hm.length_le, hin⟩

theorem within_null (m : Memory) : Span.null.Within m := ⟨le_rfl, le_rfl, fun _ => rfl, nofun⟩

theorem splice_length {xs src : List UInt8} {offset : Nat} (h : offset + src.length ≤ xs.length) :
    (splice xs offset src).length = xs.length := by
  simp only [splice, List.length_append, List.length_take, List.length_drop]
  omega

theorem splice_getElem? {xs src : List UInt8} {offset : Nat} (h : offset ≤ xs.length) (i : Nat) :
    (splice xs offset src)[i]? =
      if i < offset then xs[i]? else if i < offset + src.length then src[i - offset]? else xs[i]? := by
  have htake : (xs.take offset).length = offset := by
    rw [List.length_take]
    omega
  unfold splice
  split
  · rename_i hi
    rw [List.append_assoc, List.getElem?_append_left (by omega), List.getElem?_take_of_lt hi]
  · split
    · rw [List.append_assoc, List.getElem?_append_right (by omega), htake, List.getElem?_append_left (by omega)]
    · rw [List.getElem?_append_right (by rw [List.length_append]; omega), List.length_append, htake, List.getElem?_drop]
      congr 1
      omega

/-- The part of a list that holds what is spliced. -/
theorem take_drop_splice {xs src : List UInt8} {offset start n : Nat} (hroom : offset + src.length ≤ n)
    (hlen : start + n ≤ xs.length) :
    ((splice xs (start + offset) src).drop start).take n = splice ((xs.drop start).take n) offset src := by
  have hpart : ((xs.drop start).take n).length = n := by
    simp only [List.length_take, List.length_drop]
    omega
  refine List.ext_getElem? fun i => ?_
  rw [splice_getElem? (by omega)]
  by_cases hi : i < n
  · rw [List.getElem?_take_of_lt hi, List.getElem?_drop, splice_getElem? (by omega), List.getElem?_take_of_lt hi,
      List.getElem?_drop]
    by_cases hlo : i < offset
    · rw [if_pos (by omega), if_pos hlo]
    · rw [if_neg (by omega), if_neg hlo]
      by_cases hmid : i < offset + src.length
      · rw [if_pos (by omega), if_pos hmid]
        congr 1
        omega
      · rw [if_neg (by omega), if_neg hmid]
  · rw [List.getElem?_eq_none (by rw [List.length_take]; omega), if_neg (by omega), if_neg (by omega),
      List.getElem?_eq_none (by omega)]

theorem Memory.block_modify (m : Memory) (i j : Nat) (k : List UInt8 → List UInt8) :
    Memory.block (m.modify i k) j = if i = j ∧ j < m.length then k (m.block j) else m.block j := by
  unfold Memory.block
  rw [List.getElem?_modify]
  by_cases hj : j < m.length
  · rw [List.getElem?_eq_getElem hj]
    by_cases hij : i = j <;> simp [hij, hj]
  · rw [List.getElem?_eq_none (by omega)]
    simp [hj]

theorem grows_write {d : Option Ptr} {src : List UInt8}
    (h : ∀ p, d = some p → p.offset + src.length ≤ (m.block p.block).length) : m.Grows (m.write d src) := by
  cases d with
  | none => exact .refl m
  | some p =>
      refine ⟨?_, fun i hi => ?_⟩
      · rw [Memory.write, List.length_modify]
      · rw [Memory.write, Memory.block_modify]
        split
        · rename_i heq
          rw [← heq.1]
          exact splice_length (h p rfl)
        · rfl

theorem grows_alloc (junk : Nat → Nat → UInt8) (m : Memory) (n : Nat) : m.Grows (m.alloc junk n).1 := by
  refine ⟨?_, fun i hi => ?_⟩
  · simp [Memory.alloc]
  · simp [Memory.alloc, Memory.block, List.getElem?_append_left hi]

theorem block_alloc (junk : Nat → Nat → UInt8) (m : Memory) (n : Nat) :
    ((m.alloc junk n).1.block (m.alloc junk n).2.block).length = n := by
  simp [Memory.alloc, Memory.block]

theorem Memory.read_length (m : Memory) (d : Option Ptr) (n : Nat) : (m.read d n).length ≤ n := by
  cases d with
  | none => exact Nat.zero_le n
  | some p => exact List.length_take_le _ _

theorem View.read_length (m : Memory) (v : View) : (v.read m).length ≤ v.size := by
  cases v with
  | literal s => exact le_rfl
  | window bs => exact Memory.read_length m bs.data bs.size.toNat

theorem Span.Within.window_length (h : bs.Within m) : (bs.window m).length = bs.capacity.toNat := by
  unfold Span.window
  cases hd : bs.data with
  | none =>
      rw [h.null hd]
      rfl
  | some p =>
      obtain ⟨-, hin⟩ := h.inside p hd
      simp only [Memory.read, List.length_take, List.length_drop]
      omega

/-- The bytes of a span are the first ones of its window. -/
theorem Span.Within.read_eq (h : bs.Within m) : bs.read m = (bs.window m).take bs.size.toNat := by
  have hle := h.size_le
  unfold Span.read Span.window
  cases bs.data with
  | none => exact List.take_nil.symm
  | some p =>
      simp only [Memory.read, List.take_take]
      rw [Nat.min_eq_left (by omega)]

theorem Span.Within.read_length (h : bs.Within m) : (bs.read m).length = bs.size.toNat := by
  have hle := h.size_le
  have hnonneg := h.size_nonneg
  rw [h.read_eq, List.length_take, h.window_length]
  omega

/-- A slice that is in bounds is a window that starts later. -/
theorem slice_spec (h : bs.Within m) (start stop : Int) (hstart : 1 ≤ start) (hstop : start - 1 ≤ stop)
    (hcap : stop ≤ bs.capacity) :
    ∃ bs', bs.slice start stop = .ok bs' ∧ bs'.Within m ∧ bs'.size = stop - start + 1 ∧
      bs'.capacity = bs.capacity - start + 1 ∧ bs'.window m = (bs.window m).drop (start - 1).toNat ∧
      (bs'.capacity ≠ 0 → bs'.data = bs.data.map (·.add (start - 1).toNat)) := by
  have hlen := h.window_length
  unfold Span.slice
  rw [if_neg (by omega)]
  split
  · rename_i hzero
    refine ⟨.null, rfl, within_null m, ?_, hzero.symm, ?_, fun hno => absurd rfl hno⟩
    · change (0 : Int) = _
      omega
    · rw [List.drop_eq_nil_of_le (by omega)]
      rfl
  · refine ⟨_, rfl, ⟨?_, ?_, ?_, ?_⟩, rfl, rfl, ?_, fun _ => rfl⟩
    · simp only
      omega
    · simp only
      omega
    · intro hnone
      have hzero := h.null (by simpa using hnone)
      simp only
      omega
    · intro p hp
      obtain ⟨q, hq, rfl⟩ := Option.map_eq_some_iff.mp hp
      obtain ⟨hlt, hin⟩ := h.inside q hq
      refine ⟨hlt, ?_⟩
      simp only [Ptr.add]
      omega
    · unfold Span.window
      cases bs.data with
      | none => simp [Memory.read]
      | some p =>
          simp only [Option.map_some, Memory.read, Ptr.add]
          rw [List.drop_take, List.drop_drop]
          congr 1
          omega

/-- A write into the window. -/
theorem window_write (h : bs.Within m) (offset : Nat) (src : List UInt8) (hroom : offset + src.length ≤ bs.capacity) :
    bs.window (m.write (bs.data.map (·.add offset)) src) = splice (bs.window m) offset src := by
  unfold Span.window
  cases hd : bs.data with
  | none =>
      have hzero := h.null hd
      have hnil : src = [] := List.eq_nil_of_length_eq_zero (by omega)
      subst hnil
      simp [Memory.read, splice]
  | some p =>
      obtain ⟨hlt, hin⟩ := h.inside p hd
      simp only [Option.map_some, Memory.write, Memory.read, Ptr.add]
      rw [Memory.block_modify, if_pos ⟨rfl, hlt⟩]
      exact take_drop_splice (by omega) (by omega)

/-- A write into another allocation. -/
theorem read_write_ne {d : Option Ptr} {q : Ptr} (hq : ∀ p, d = some p → p.block ≠ q.block) (src : List UInt8) (n : Nat) :
    (m.write (some q) src).read d n = m.read d n := by
  cases d with
  | none => rfl
  | some p =>
      simp only [Memory.read, Memory.write]
      rw [Memory.block_modify, if_neg fun heq => hq p rfl heq.1.symm]

theorem window_write_ne {q : Ptr} (hq : ∀ p, bs.data = some p → p.block ≠ q.block) (src : List UInt8) :
    bs.window (m.write (some q) src) = bs.window m := read_write_ne hq src _

/-- A new allocation changes none that is there. -/
theorem window_alloc (h : bs.Within m) (junk : Nat → Nat → UInt8) (n : Nat) :
    bs.window (m.alloc junk n).1 = bs.window m := by
  unfold Span.window
  cases hd : bs.data with
  | none => rfl
  | some p =>
      obtain ⟨hlt, -⟩ := h.inside p hd
      simp only [Memory.read, Memory.alloc, Memory.block, List.getElem?_append_left hlt]

theorem within_allocate (m : Memory) (junk : Nat → Nat → UInt8) {size capacity : Int} (hsize : 0 ≤ size) (hle : size ≤ capacity) :
    ((Construct.allocate size capacity).run junk m).2.Within ((Construct.allocate size capacity).run junk m).1 := by
  refine ⟨hsize, hle, nofun, ?_⟩
  rintro p hp
  obtain rfl : (m.alloc junk capacity.toNat).2 = p := Option.some.inj hp
  have hlen := block_alloc junk m capacity.toNat
  refine ⟨?_, ?_⟩
  · simp [Construct.run, Memory.alloc]
  · change ((0 : Nat) : Int) + capacity ≤ ((m.alloc junk capacity.toNat).1.block (m.alloc junk capacity.toNat).2.block).length
    rw [hlen]
    omega

/-- A write at the beginning of the window. -/
theorem window_write_start (h : bs.Within m) {src : List UInt8} (hroom : src.length ≤ bs.capacity) :
    bs.window (m.write bs.data src) = splice (bs.window m) 0 src := by
  have hdata : bs.data.map (·.add 0) = bs.data := by
    cases bs.data <;> rfl
  have hwrite := window_write h 0 src (by omega)
  rwa [hdata] at hwrite

theorem read_congr (h : bs.Within m) (h' : bs.Within m') (hwindow : bs.window m' = bs.window m) :
    bs.read m' = bs.read m := by
  rw [h.read_eq, h'.read_eq, hwindow]

theorem take_splice (xs src : List UInt8) {offset : Nat} (h : offset ≤ xs.length) :
    (splice xs offset src).take (offset + src.length) = xs.take offset ++ src := by
  have hlen : (xs.take offset ++ src).length = offset + src.length := by
    rw [List.length_append, List.length_take]
    omega
  rw [splice, ← hlen, List.take_left]

theorem splice_append {xs p q : List UInt8} {k : Nat} (hk : k ≤ xs.length) :
    splice (splice xs k p) (k + p.length) q = splice xs k (p ++ q) := by
  have hfront : (splice xs k p).take (k + p.length) = xs.take k ++ p := take_splice xs p hk
  have hlen : (xs.take k ++ p).length = k + p.length := by
    rw [List.length_append, List.length_take]
    omega
  have hback : (splice xs k p).drop (k + p.length + q.length) = xs.drop (k + p.length + q.length) := by
    rw [splice, ← List.drop_drop, ← hlen, List.drop_left, List.drop_drop, hlen]
  conv_lhs => rw [splice, hfront, hback]
  rw [splice, List.length_append, List.append_assoc (xs.take k), ← Nat.add_assoc]

theorem Memory.write_nil (m : Memory) (d : Option Ptr) : m.write d [] = m := by
  cases d with
  | none => rfl
  | some p =>
      have hid : (fun xs : List UInt8 => splice xs p.offset []) = id := by
        funext xs
        simp [splice]
      simp only [Memory.write, hid, List.modify_id]

/-- `copy` takes as many bytes as there is room for. -/
theorem copy_eq {src : Span} (hsrc : src.Within m) (bs : Span) :
    (bs.copy m (.window src)).1 = m.write bs.data ((src.read m).take bs.size.toNat) := by
  have hlen := hsrc.read_length
  change (if min src.size.toNat bs.size.toNat ≠ 0 then
    m.write bs.data ((src.read m).take (min src.size.toNat bs.size.toNat)) else m) = _
  by_cases hzero : min src.size.toNat bs.size.toNat ≠ 0
  · rw [if_pos hzero]
    congr 1
    rw [List.take_eq_take_iff]
    omega
  · rw [if_neg hzero]
    have hnil : (src.read m).take bs.size.toNat = [] := by
      refine List.eq_nil_of_length_eq_zero ?_
      rw [List.length_take]
      omega
    rw [hnil, Memory.write_nil]

theorem copy_spec {src : Span} (h : bs.Within m) (hsrc : src.Within m) :
    m.Grows (bs.copy m (.window src)).1 ∧
      bs.window (bs.copy m (.window src)).1 = splice (bs.window m) 0 ((src.read m).take bs.size.toNat) := by
  have hcap := h.size_le
  have hnonneg := h.size_nonneg
  have hlen := List.length_take_le bs.size.toNat (src.read m)
  rw [copy_eq hsrc]
  refine ⟨grows_write fun p hp => ?_, window_write_start h (by omega)⟩
  obtain ⟨-, hin⟩ := h.inside p hp
  omega

/-- A span is copied into a new allocation. -/
theorem copy_fresh (junk : Nat → Nat → UInt8) {src : Span} (h : src.Within m) (size : Int) (hle : src.size ≤ size)
    {m' : Memory} (hm' : m' = (((Construct.allocate size size).run junk m).2.copy
      ((Construct.allocate size size).run junk m).1 (.window src)).1) :
    m.Grows m' ∧ ((Construct.allocate size size).run junk m).2.Within m' ∧
      (((Construct.allocate size size).run junk m).2.window m').take src.size.toNat = src.read m ∧
      ∀ bs : Span, bs.Within m → bs.window m' = bs.window m := by
  have hnonneg := h.size_nonneg
  have hgrows : m.Grows ((Construct.allocate size size).run junk m).1 := grows_alloc junk m size.toNat
  have hnew := within_allocate m junk (show 0 ≤ size by omega) le_rfl
  have hsrc := h.grow hgrows
  have hread : src.read ((Construct.allocate size size).run junk m).1 = src.read m := read_congr h hsrc (window_alloc h junk _)
  obtain ⟨hcopy, hwindow⟩ := copy_spec hnew hsrc
  have hlen := hsrc.read_length
  have hall : (src.read ((Construct.allocate size size).run junk m).1).take size.toNat = src.read m := by
    rw [List.take_of_length_le (by omega), hread]
  subst hm'
  refine ⟨hgrows.trans hcopy, hnew.grow hcopy, ?_, fun bs hbs => ?_⟩
  · have htake := take_splice (((Construct.allocate size size).run junk m).2.window ((Construct.allocate size size).run junk m).1)
      (src.read m) (Nat.zero_le _)
    rw [Nat.zero_add, List.take_zero, List.nil_append, h.read_length] at htake
    refine Eq.trans (congrArg (List.take _) ?_) htake
    rw [hwindow]
    exact congrArg (splice _ 0) hall
  rw [copy_eq hsrc]
  refine (window_write_ne (fun p hp => ?_) _).trans (window_alloc hbs junk _)
  obtain ⟨hlt, -⟩ := hbs.inside p hp
  exact Nat.ne_of_lt hlt

end

end Emilua.Bytes
