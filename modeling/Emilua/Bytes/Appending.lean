import Mathlib.Data.List.GetD
import Emilua.Bytes.Windows
import Emilua.Bytes.Transfers

/-!
What `append` returns. Arguments may be windows into the allocation that is
appended to, and are copied with `memcpy`, which says nothing about ranges that
overlap.
-/
namespace Emilua.Bytes

/-- What is at a destination after `memcpy` from a source that overlaps it. -/
abbrev Overlapped := Memory → Ptr → Span → Nat → UInt8

/-- The bytes of `bs` and as many bytes from `dst` on have one in common. -/
def Span.overlaps (bs : Span) (dst : Ptr) : Bool :=
  bs.data.any fun p =>
    p.block == dst.block && dst.offset < p.offset + bs.size.toNat && p.offset < dst.offset + bs.size.toNat

/-- What `memcpy` leaves at `dst`. -/
def copied (u : Overlapped) (m : Memory) (dst : Option Ptr) (v : View) : List UInt8 :=
  match dst, v with
  | some p, .window bs => if bs.overlaps p then (List.range bs.size.toNat).map (u m p bs) else bs.read m
  | _, v => v.read m

/-- The loop of both functions over their arguments. -/
def appendCopies (u : Overlapped) (dst : Option Ptr) (idx : Nat) (m : Memory) : List View → Memory
  | [] => m
  | v :: vs =>
      if v.size = 0 then appendCopies u dst idx m vs
      else
        let target := dst.map (·.add idx)
        appendCopies u dst (idx + v.size) (m.write target (copied u m target v)) vs

/-- `byte_span_member_append`. -/
def memberAppend (u : Overlapped) (junk : Nat → Nat → UInt8) (m : Memory) (bs : Span) (args : List Arg) :
    Except Error (Memory × Span) :=
  if args.isEmpty then .ok (m, bs)
  else do
    let (c, tail) ← byteSpanMemberAppend bs args
    let (m, dst) := c.run junk m
    let m := match c with
      | .share _ => m
      | .allocate _ _ => if bs.size > 0 then m.write dst.data (copied u m dst.data (.window bs)) else m
    .ok (appendCopies u dst.data bs.size.toNat m tail, dst)

/-- `byte_span_non_member_append`. -/
def nonMemberAppend (u : Overlapped) (junk : Nat → Nat → UInt8) (m : Memory) (args : List Arg) : Except Error (Memory × Span) := do
  let (c, slices) ← byteSpanNonMemberAppend args
  let (m, dst) := c.run junk m
  .ok (appendCopies u dst.data 0 m slices, dst)

/-- `memmove` for `memcpy`. -/
def moved : Overlapped := fun m _ bs i => (bs.read m).getD i 0

/-- The bytes of the views, one after the other. -/
def bytesOf (m : Memory) (vs : List View) : List UInt8 := vs.flatMap (View.read m)

/-- Every view has its own bytes when it is copied, and they do not overlap the
place they are copied to, `size` bytes behind `data`. -/
def Undisturbed (m : Memory) (data : Option Ptr) (size : Nat) (tail : List View) : Prop :=
  ∀ done v rest, tail = done ++ v :: rest →
    (∀ p bs, data = some p → v = .window bs → bs.overlaps (p.add (size + totalSize done)) = false) ∧
      v.read (m.write (data.map (·.add size)) (bytesOf m done)) = v.read m

section
variable {u : Overlapped} {m : Memory} {bs dst : Span} {v : View} {vs : List View}

theorem View.Within.read_length (h : v.Within m) : (v.read m).length = v.size := by
  cases v with
  | literal s => rfl
  | window bs => exact Span.Within.read_length h

theorem bytesOf_length (h : ∀ v ∈ vs, v.Within m) : (bytesOf m vs).length = totalSize vs := by
  induction vs with
  | nil => rfl
  | cons v vs ih =>
      have hhead := (h v List.mem_cons_self).read_length
      have htail := ih fun w hw => h w (List.mem_cons_of_mem _ hw)
      rw [bytesOf, List.flatMap_cons, List.length_append, hhead]
      change v.size + (bytesOf m vs).length = _
      rw [htail]
      simp [totalSize]

theorem copied_length (u : Overlapped) (target : Option Ptr) (h : v.Within m) : (copied u m target v).length = v.size := by
  have hlen := h.read_length
  unfold copied
  split
  · split
    · rw [List.length_map, List.length_range]
      rfl
    · exact hlen
  · exact hlen

theorem write_append {d : Option Ptr} {p q : List UInt8} (h : ∀ x, d = some x → x.offset ≤ (m.block x.block).length) :
    (m.write d p).write (d.map (·.add p.length)) q = m.write d (p ++ q) := by
  cases d with
  | none => rfl
  | some x =>
      have hoff := h x rfl
      simp only [Option.map_some, Memory.write, Ptr.add]
      rw [List.modify_modify_eq]
      refine List.ext_getElem? fun i => ?_
      rw [List.getElem?_modify, List.getElem?_modify]
      cases hi : m[i]? with
      | none => rfl
      | some xs =>
          by_cases heq : x.block = i
          · have hblock : m.block x.block = xs := by
              rw [Memory.block, heq, hi]
              rfl
            rw [hblock] at hoff
            simp only [heq, if_true, Option.map_eq_map, Option.map_some, Function.comp]
            rw [splice_append hoff]
          · simp [heq]

theorem copied_moved (target : Option Ptr) (h : v.Within m) : copied moved m target v = v.read m := by
  have hlen := h.read_length
  unfold copied
  split
  · rename_i p bs
    split
    · change (bs.read m).length = bs.size.toNat at hlen
      change (List.range bs.size.toNat).map (moved m p bs) = bs.read m
      rw [← hlen]
      refine List.ext_getElem (by simp) fun i hi hi' => ?_
      rw [List.getElem_map, List.getElem_range, moved, List.getD_eq_getElem _ _ hi']
    · rfl
  · rfl

/-- What the loop copies, one view after the other. -/
def copies (u : Overlapped) (dst : Option Ptr) (idx : Nat) (m : Memory) : List View → List UInt8
  | [] => []
  | v :: vs =>
      let target := dst.map (·.add idx)
      copied u m target v ++ copies u dst (idx + v.size) (m.write target (copied u m target v)) vs

theorem copied_empty (u : Overlapped) (target : Option Ptr) (h : v.Within m) (hzero : v.size = 0) : copied u m target v = [] :=
  List.eq_nil_of_length_eq_zero (by rw [copied_length u target h, hzero])

theorem within_write (h : v.Within m) {d : Option Ptr} {src : List UInt8} (hgrows : m.Grows (m.write d src)) :
    v.Within (m.write d src) := by
  cases v with
  | literal s => exact h
  | window bs => exact Span.Within.grow h hgrows

theorem grows_into (h : dst.Within m) {idx : Nat} {src : List UInt8} (hroom : (idx + src.length : Nat) ≤ dst.capacity) :
    m.Grows (m.write (dst.data.map (·.add idx)) src) := by
  refine grows_write fun q hq => ?_
  obtain ⟨p, hp, rfl⟩ := Option.map_eq_some_iff.mp hq
  obtain ⟨-, hin⟩ := h.inside p hp
  simp only [Ptr.add]
  omega

/-- With `memmove`, the loop is the one that is looked at for its bounds. -/
theorem appendCopies_moved (h : dst.Within m) {idx : Nat} (hvs : ∀ v ∈ vs, v.Within m)
    (hroom : (idx + totalSize vs : Nat) ≤ dst.capacity) :
    appendCopies moved dst.data idx m vs = appendViews dst.data idx m vs := by
  induction vs generalizing m idx with
  | nil => rfl
  | cons v vs ih =>
      have hsum : totalSize (v :: vs) = v.size + totalSize vs := by simp [totalSize]
      have hv := hvs v List.mem_cons_self
      have hlen := hv.read_length
      have hgrows := @grows_into m dst h idx (v.read m) (by omega)
      rw [appendCopies, appendViews]
      split
      · exact ih h (fun w hw => hvs w (List.mem_cons_of_mem _ hw)) (by omega)
      · simp only [copied_moved _ hv]
        exact ih (h.grow hgrows) (fun w hw => within_write (hvs w (List.mem_cons_of_mem _ hw)) hgrows) (by omega)

theorem copies_length (h : dst.Within m) {idx : Nat} (hvs : ∀ v ∈ vs, v.Within m)
    (hroom : (idx + totalSize vs : Nat) ≤ dst.capacity) : (copies u dst.data idx m vs).length = totalSize vs := by
  induction vs generalizing m idx with
  | nil => rfl
  | cons v vs ih =>
      have hsum : totalSize (v :: vs) = v.size + totalSize vs := by simp [totalSize]
      have hlen := copied_length u (dst.data.map (·.add idx)) (hvs v List.mem_cons_self)
      have hgrows := @grows_into m dst h idx (copied u m (dst.data.map (·.add idx)) v) (by omega)
      rw [copies, List.length_append, hlen, hsum]
      rw [ih (h.grow hgrows) (fun w hw => within_write (hvs w (List.mem_cons_of_mem _ hw)) hgrows) (by omega)]

/-- The loop writes what it copies behind each other. -/
theorem appendCopies_window (u : Overlapped) (h : dst.Within m) {idx : Nat} (hvs : ∀ v ∈ vs, v.Within m)
    (hroom : (idx + totalSize vs : Nat) ≤ dst.capacity) :
    m.Grows (appendCopies u dst.data idx m vs) ∧
      dst.window (appendCopies u dst.data idx m vs) = splice (dst.window m) idx (copies u dst.data idx m vs) := by
  induction vs generalizing m idx with
  | nil => exact ⟨.refl m, by simp [appendCopies, copies, splice]⟩
  | cons v vs ih =>
      have hsum : totalSize (v :: vs) = v.size + totalSize vs := by simp [totalSize]
      have hv := hvs v List.mem_cons_self
      have hlen := copied_length u (dst.data.map (·.add idx)) hv
      have hgrows := @grows_into m dst h idx (copied u m (dst.data.map (·.add idx)) v) (by omega)
      obtain ⟨hgrows', hwindow⟩ := @ih _ (h.grow hgrows) (idx + v.size)
        (fun w hw => within_write (hvs w (List.mem_cons_of_mem _ hw)) hgrows) (by omega)
      have hwlen := h.window_length
      have hstep : appendCopies u dst.data idx m (v :: vs) = appendCopies u dst.data (idx + v.size)
          (m.write (dst.data.map (·.add idx)) (copied u m (dst.data.map (·.add idx)) v)) vs := by
        rw [appendCopies]
        split
        · rename_i hzero
          rw [copied_empty u _ hv hzero, Memory.write_nil, hzero, Nat.add_zero]
        · rfl
      rw [hstep]
      refine ⟨hgrows.trans hgrows', ?_⟩
      rw [hwindow, window_write h idx _ (by omega), copies, ← hlen, splice_append (by omega)]

/-- A copy is right whatever `memcpy` does to overlapping ranges, exactly if the
ranges do not overlap and the source has its bytes. -/
theorem copied_iff {m₀ : Memory} {target : Option Ptr} (h : v.Within m) :
    (∀ u, copied u m target v = v.read m₀) ↔
      (∀ p bs, target = some p → v = .window bs → bs.overlaps p = false) ∧ v.read m = v.read m₀ := by
  have hfree (hno : ∀ p bs, target = some p → v = .window bs → bs.overlaps p = false) (u : Overlapped) :
      copied u m target v = v.read m := by
    unfold copied
    split
    · rename_i p bs
      rw [if_neg (by rw [hno p bs rfl rfl]; exact Bool.false_ne_true)]
      rfl
    · rfl
  constructor
  · intro hall
    have hno : ∀ p bs, target = some p → v = .window bs → bs.overlaps p = false := by
      rintro p bs rfl rfl
      by_contra hoverlap
      rw [Bool.not_eq_false] at hoverlap
      have hpos : 0 < bs.size.toNat := by
        obtain ⟨q, -, hq⟩ := (Option.any_eq_true _ _).mp hoverlap
        simp only [Bool.and_eq_true, decide_eq_true_eq] at hq
        omega
      have hzero := hall fun _ _ _ _ => 0
      have hone := hall fun _ _ _ _ => 1
      simp only [copied, hoverlap, if_true] at hzero hone
      have hsame := congrArg List.head? (hzero.trans hone.symm)
      obtain ⟨n, hn⟩ := Nat.exists_eq_succ_of_ne_zero hpos.ne'
      rw [hn] at hsame
      simp [List.range_succ_eq_map] at hsame
    exact ⟨hno, (hfree hno (fun _ _ _ _ => 0)).symm.trans (hall _)⟩
  · rintro ⟨hno, hread⟩ u
    rw [hfree hno u, hread]

theorem copies_iff (h : dst.Within m) {size : Nat} {done : List View} (hdone : ∀ v ∈ done, v.Within m) (hvs : ∀ v ∈ vs, v.Within m)
    (hroom : (size + totalSize done + totalSize vs : Nat) ≤ dst.capacity) :
    (∀ u, copies u dst.data (size + totalSize done) (m.write (dst.data.map (·.add size)) (bytesOf m done)) vs = bytesOf m vs) ↔
      ∀ mid v rest, vs = mid ++ v :: rest →
        (∀ p bs, dst.data.map (·.add (size + totalSize (done ++ mid))) = some p → v = .window bs → bs.overlaps p = false) ∧
          v.read (m.write (dst.data.map (·.add size)) (bytesOf m (done ++ mid))) = v.read m := by
  induction vs generalizing done with
  | nil => exact ⟨fun _ mid v rest heq => absurd heq (by simp), fun _ _ => rfl⟩
  | cons v vs ih =>
      have hsum : totalSize (v :: vs) = v.size + totalSize vs := by simp [totalSize]
      have hv := hvs v List.mem_cons_self
      have hvlen := hv.read_length
      have hdlen := bytesOf_length hdone
      have hgrows : m.Grows (m.write (dst.data.map (·.add size)) (bytesOf m done)) := grows_into h (by omega)
      have hfirst := @copied_iff _ v m (dst.data.map (·.add (size + totalSize done))) (within_write hv hgrows)
      have hdone' : ∀ w ∈ done ++ [v], w.Within m := by
        intro w hw
        rcases List.mem_append.mp hw with hw | hw
        · exact hdone w hw
        · exact List.mem_singleton.mp hw ▸ hv
      have hsize' : totalSize (done ++ [v]) = totalSize done + v.size := by simp [totalSize]
      have hrest := @ih (done ++ [v]) hdone' (fun w hw => hvs w (List.mem_cons_of_mem _ hw)) (by omega)
      have hnext : (m.write (dst.data.map (·.add size)) (bytesOf m done)).write (dst.data.map (·.add (size + totalSize done)))
          (v.read m) = m.write (dst.data.map (·.add size)) (bytesOf m (done ++ [v])) := by
        have htarget : dst.data.map (·.add (size + totalSize done)) =
            (dst.data.map (·.add size)).map (·.add (bytesOf m done).length) := by
          rw [Option.map_map, hdlen]
          congr 1
          funext p
          simp only [Function.comp, Ptr.add, Nat.add_assoc]
        have hcat : bytesOf m (done ++ [v]) = bytesOf m done ++ v.read m := by simp [bytesOf]
        rw [htarget, hcat]
        refine write_append fun x hx => ?_
        obtain ⟨p, hp, rfl⟩ := Option.map_eq_some_iff.mp hx
        obtain ⟨-, hin⟩ := h.inside p hp
        simp only [Ptr.add]
        omega
      have hindex : size + totalSize done + v.size = size + totalSize (done ++ [v]) := by omega
      constructor
      · intro hall
        have hsplit (u : Overlapped) := List.append_inj (hall u) (by rw [copied_length u _ (within_write hv hgrows), hvlen])
        have hhead := hfirst.mp fun u => (hsplit u).1
        have htail := hrest.mp fun u => by
          have hcopies := (hsplit u).2
          rwa [(hsplit u).1, hnext, hindex] at hcopies
        intro mid v' rest heq
        cases mid with
        | nil =>
            obtain ⟨rfl, rfl⟩ := List.cons.inj heq
            rw [List.append_nil]
            exact hhead
        | cons w mid =>
            obtain ⟨rfl, hrestEq⟩ := List.cons.inj heq
            have hlater := htail mid v' rest hrestEq
            rwa [List.append_assoc] at hlater
      · intro hcond u
        have hhead := hfirst.mpr (by simpa using hcond [] v vs rfl) u
        have htail := hrest.mpr (fun mid v' rest heq => by
          have hlater := hcond (v :: mid) v' rest (congrArg (v :: ·) heq)
          rwa [List.append_assoc]) u
        rw [copies, hhead, hnext, hindex, htail]
        rfl

/-- Nothing is disturbed in a new allocation. -/
theorem copies_fresh (h : dst.Within m) {size : Nat} (hvs : ∀ v ∈ vs, v.Within m) (hroom : (size + totalSize vs : Nat) ≤ dst.capacity)
    (hfresh : ∀ p bs q, dst.data = some p → .window bs ∈ vs → bs.data = some q → q.block ≠ p.block) (u : Overlapped) :
    copies u dst.data size m vs = bytesOf m vs := by
  have hiff := @copies_iff m dst vs h size [] (by simp) hvs (by simpa [totalSize] using hroom)
  have hnone : m.write (dst.data.map (·.add size)) (bytesOf m []) = m := Memory.write_nil _ _
  have hzero : size + totalSize [] = size := by simp [totalSize]
  rw [hnone, hzero] at hiff
  refine hiff.mpr (fun mid v rest heq => ⟨?_, ?_⟩) u
  · rintro p bs hp rfl
    obtain ⟨p', hp', rfl⟩ := Option.map_eq_some_iff.mp hp
    have hmem : View.window bs ∈ vs := by simp [heq]
    unfold Span.overlaps
    cases hq : bs.data with
    | none => rfl
    | some q =>
        have hne := hfresh p' bs q hp' hmem hq
        simp [Ptr.add, hne]
  · cases v with
    | literal => rfl
    | window bs =>
        have hmem : View.window bs ∈ vs := by simp [heq]
        have hin : bs.Within m := hvs _ hmem
        cases hd : dst.data with
        | none => rfl
        | some p =>
            exact @read_write_ne m bs.data (p.add size) (fun q hq => hfresh p bs q hd hmem hq) _ bs.size.toNat

/-- The result of a loop that has room for all. -/
theorem appended_read (h : dst.Within m) (hvs : ∀ v ∈ vs, v.Within m) {size : Nat} (hsize : dst.size = (size + totalSize vs : Nat)) :
    dst.read (appendCopies u dst.data size m vs) = (dst.window m).take size ++ copies u dst.data size m vs := by
  have hcap := h.size_le
  have hroom : ((size + totalSize vs : Nat) : Int) ≤ dst.capacity := by omega
  obtain ⟨hgrows, hwindow⟩ := appendCopies_window u h hvs hroom
  have hlen := @copies_length u m dst vs h size hvs hroom
  have hwlen := h.window_length
  have htake := take_splice (dst.window m) (copies u dst.data size m vs) (show size ≤ _ by omega)
  rw [hlen] at htake
  rw [(h.grow hgrows).read_eq, hwindow, hsize, Int.toNat_natCast, htake]

/-- A new allocation, beside what the views are in. -/
theorem allocate_fresh (junk : Nat → Nat → UInt8) (m : Memory) (n : Nat) :
    ∃ m₁ dst, (Construct.allocate (n : Int) n).run junk m = (m₁, dst) ∧ dst.Within m₁ ∧ dst.size = n ∧ dst.capacity = n ∧
      ∀ v : View, v.Within m → v.Within m₁ ∧ v.read m₁ = v.read m ∧
        ∀ p bs q, dst.data = some p → v = .window bs → bs.data = some q → q.block ≠ p.block := by
  refine ⟨_, _, rfl, within_allocate m junk (by omega) le_rfl, rfl, rfl, fun v hv => ?_⟩
  have hgrows : m.Grows ((Construct.allocate (n : Int) n).run junk m).1 := grows_alloc junk m n
  cases v with
  | literal => exact ⟨hv, rfl, nofun⟩
  | window bs =>
      have hin : bs.Within m := hv
      refine ⟨hin.grow hgrows, read_congr hin (hin.grow hgrows) (window_alloc hin junk n), ?_⟩
      rintro p bs q hp ⟨rfl⟩ hq
      obtain ⟨hlt, -⟩ := hin.inside q hq
      obtain rfl := Option.some.inj hp
      exact Nat.ne_of_lt hlt

theorem bytesOf_congr {m' : Memory} (h : ∀ v ∈ vs, v.read m' = v.read m) : bytesOf m' vs = bytesOf m vs := by
  induction vs with
  | nil => rfl
  | cons v vs ih =>
      rw [bytesOf, bytesOf, List.flatMap_cons, List.flatMap_cons, h v List.mem_cons_self]
      exact congrArg (v.read m ++ ·) (ih fun w hw => h w (List.mem_cons_of_mem _ hw))

theorem addSizes_run {total : Int} (htotal : total ≤ intMax) :
    addSizes total vs = if total + totalSize vs ≤ intMax then .ok (total + totalSize vs) else .error .overflow := by
  induction vs generalizing total with
  | nil => simp [addSizes, totalSize, htotal]
  | cons v vs ih =>
      have hsum : totalSize (v :: vs) = v.size + totalSize vs := by simp [totalSize]
      rw [addSizes, hsum]
      by_cases hle : total + v.size ≤ intMax
      · rw [if_pos hle, ih hle]
        have hassoc : total + ((v.size + totalSize vs : Nat) : Int) = total + v.size + totalSize vs := by omega
        rw [hassoc]
      · rw [if_neg hle, if_neg (by omega)]

theorem append_allocated (junk : Nat → Nat → UInt8) (u : Overlapped) (hvs : ∀ v ∈ vs, v.Within m) {m₁ : Memory}
    (hrun : (Construct.allocate (totalSize vs : Int) (totalSize vs)).run junk m = (m₁, dst)) :
    dst.read (appendCopies u dst.data 0 m₁ vs) = bytesOf m vs := by
  obtain ⟨m₂, dst₂, hrun₂, hin, hsize, hcap, hfresh⟩ := allocate_fresh junk m (totalSize vs)
  obtain ⟨rfl, rfl⟩ := Prod.mk.inj (hrun.symm.trans hrun₂)
  have hvs₁ : ∀ v ∈ vs, v.Within m₁ := fun v hv => (hfresh v (hvs v hv)).1
  have hcopies := @copies_fresh m₁ dst vs hin 0 hvs₁ (by omega)
    (fun p bs q hp hmem hq => (hfresh _ (hvs _ hmem)).2.2 p bs q hp rfl hq) u
  rw [appended_read hin hvs₁ (by omega), hcopies]
  exact bytesOf_congr fun v hv => (hfresh v (hvs v hv)).2.1

/-- The function that allocates returns the bytes of its arguments. -/
theorem nonMemberAppend_contents (junk : Nat → Nat → UInt8) {args : List Arg} (hargs : tailSlices 1 args = .ok vs)
    (hvs : ∀ v ∈ vs, v.Within m) (u : Overlapped) :
    if (totalSize vs : Int) ≤ intMax then ∃ m' dst, nonMemberAppend u junk m args = .ok (m', dst) ∧ dst.read m' = bytesOf m vs
    else nonMemberAppend u junk m args = .error .overflow := by
  have hsizes := @addSizes_run vs 0 (by decide)
  rw [Int.zero_add] at hsizes
  have hlen := bytesOf_length hvs
  split
  · rename_i hle
    rw [if_pos hle] at hsizes
    by_cases hzero : (totalSize vs : Int) = 0
    · refine ⟨m, .null, ?_, ?_⟩
      · simp only [nonMemberAppend, byteSpanNonMemberAppend, hargs, hsizes, bind, Except.bind, hzero, if_true]
        rfl
      · exact (List.eq_nil_of_length_eq_zero (by omega)).symm
    · obtain ⟨m₁, dst, hrun, -⟩ := allocate_fresh junk m (totalSize vs)
      refine ⟨appendCopies u dst.data 0 m₁ vs, dst, ?_, append_allocated junk u hvs hrun⟩
      simp only [nonMemberAppend, byteSpanNonMemberAppend, hargs, hsizes, bind, Except.bind, hzero, if_false, hrun]
  · rename_i hlarge
    rw [if_neg hlarge] at hsizes
    simp only [nonMemberAppend, byteSpanNonMemberAppend, hargs, hsizes, bind, Except.bind]

theorem undisturbed_iff (h : dst.Within m) {size : Nat} (hvs : ∀ v ∈ vs, v.Within m)
    (hroom : (size + totalSize vs : Nat) ≤ dst.capacity) :
    (∀ u, copies u dst.data size m vs = bytesOf m vs) ↔ Undisturbed m dst.data size vs := by
  have hiff := @copies_iff m dst vs h size [] (by simp) hvs (by simpa [totalSize] using hroom)
  have hnone : m.write (dst.data.map (·.add size)) (bytesOf m []) = m := Memory.write_nil _ _
  have hzero : size + totalSize [] = size := by simp [totalSize]
  rw [hnone, hzero] at hiff
  rw [hiff]
  constructor
  · intro hall done v rest heq
    obtain ⟨hno, hread⟩ := hall done v rest heq
    refine ⟨fun p bs hp hv => hno _ bs ?_ hv, hread⟩
    rw [hp]
    rfl
  · intro hall done v rest heq
    obtain ⟨hno, hread⟩ := hall done v rest heq
    refine ⟨fun p bs hp hv => ?_, hread⟩
    obtain ⟨q, hq, rfl⟩ := Option.map_eq_some_iff.mp hp
    exact hno q bs hq hv

theorem undisturbed_empty (hvs : ∀ v ∈ vs, v.Within m) (hzero : totalSize vs = 0) (data : Option Ptr) (size : Nat) :
    Undisturbed m data size vs := by
  intro done v rest heq
  have hsize : v.size = 0 := by
    have hle := List.single_le_sum (fun _ _ => Nat.zero_le _) v.size
      (List.mem_map_of_mem (show v ∈ vs by simp [heq]))
    exact Nat.eq_zero_of_le_zero (hzero ▸ hle)
  have hdone : bytesOf m done = [] := by
    have hlen := @bytesOf_length m done fun w hw => hvs w (by rw [heq]; exact List.mem_append_left _ hw)
    have hsum : totalSize vs = totalSize done + totalSize (v :: rest) := by simp [totalSize, heq]
    exact List.eq_nil_of_length_eq_zero (by omega)
  rw [hdone, Memory.write_nil]
  refine ⟨?_, rfl⟩
  rintro p bs - rfl
  have hnone : bs.size.toNat = 0 := hsize
  unfold Span.overlaps
  cases hq : bs.data with
  | none => rfl
  | some q =>
      simp only [Option.any_some, hnone, Nat.add_zero, Bool.and_eq_false_iff, decide_eq_false_iff_not]
      omega

theorem member_allocated (u : Overlapped) (m₁ : Memory) (bs dst : Span) (tail : List View) :
    appendCopies u dst.data bs.size.toNat
        (if bs.size > 0 then m₁.write dst.data (copied u m₁ dst.data (.window bs)) else m₁) tail =
      appendCopies u dst.data 0 m₁ (.window bs :: tail) := by
  have hstart : dst.data.map (·.add 0) = dst.data := by
    cases dst.data <;> rfl
  rw [appendCopies, hstart]
  change appendCopies u dst.data bs.size.toNat _ tail = if bs.size.toNat = 0 then _ else
    appendCopies u dst.data (0 + bs.size.toNat) _ tail
  by_cases hsize : bs.size > 0
  · rw [if_pos hsize, if_neg (by omega), Nat.zero_add]
  · have hzero : bs.size.toNat = 0 := by omega
    rw [if_neg hsize, if_pos hzero, hzero]

/-- The method returns the bytes of its arguments, exactly if it allocates or
none of them is disturbed. -/
theorem memberAppend_contents (junk : Nat → Nat → UInt8) (h : bs.Fits m) {args : List Arg} (hargs : tailSlices 2 args = .ok vs)
    (hvs : ∀ v ∈ vs, v.Within m) :
    if bs.size + totalSize vs ≤ intMax then
      ((∀ u, ∃ m' dst, memberAppend u junk m bs args = .ok (m', dst) ∧ dst.read m' = bs.read m ++ bytesOf m vs) ↔
        bs.capacity < bs.size + totalSize vs ∨ Undisturbed m bs.data bs.size.toNat vs)
    else ∀ u, memberAppend u junk m bs args = .error .overflow := by
  have hnonneg := h.size_nonneg
  have hcap := h.size_le
  have hnarrow := h.narrow
  have hlen := bytesOf_length hvs
  have hblen := h.read_length
  have hsizes := @addSizes_run vs bs.size (by omega)
  cases args with
  | nil =>
      obtain rfl := Except.ok.inj hargs
      have hzero : totalSize [] = 0 := by simp [totalSize]
      rw [if_pos (by omega)]
      refine ⟨fun _ => .inr (undisturbed_empty hvs hzero _ _), fun _ u => ⟨m, bs, rfl, ?_⟩⟩
      exact (List.append_nil _).symm
  | cons a args =>
      split
      · rename_i hle
        rw [if_pos hle] at hsizes
        by_cases hzero : bs.size + totalSize vs = 0
        · refine ⟨fun _ => .inr (undisturbed_empty hvs (by omega) _ _), fun _ u => ⟨m, .null, ?_, ?_⟩⟩
          · simp only [memberAppend, List.isEmpty_cons, Bool.false_eq_true, if_false, byteSpanMemberAppend, hargs, hsizes, bind,
              Except.bind, hzero, if_true]
            rfl
          · refine (List.eq_nil_of_length_eq_zero ?_).symm
            rw [List.length_append]
            omega
        · by_cases hroom : bs.capacity ≥ bs.size + totalSize vs
          · -- in place
            have hcall (u : Overlapped) : memberAppend u junk m bs (a :: args) =
                .ok (appendCopies u bs.data bs.size.toNat m vs, ⟨bs.data, bs.size + totalSize vs, bs.capacity⟩) := by
              simp only [memberAppend, List.isEmpty_cons, Bool.false_eq_true, if_false, byteSpanMemberAppend, hargs, hsizes, bind,
                Except.bind, hzero, hroom, if_true]
              rfl
            have hdst : Span.Within m ⟨bs.data, bs.size + totalSize vs, bs.capacity⟩ :=
              ⟨show (0 : Int) ≤ bs.size + totalSize vs by omega, hroom, h.null, h.inside⟩
            have hread (u : Overlapped) := @appended_read u m _ vs hdst hvs bs.size.toNat
              (show bs.size + (totalSize vs : Int) = _ by omega)
            have hfront : ((⟨bs.data, bs.size + totalSize vs, bs.capacity⟩ : Span).window m).take bs.size.toNat = bs.read m :=
              h.read_eq.symm
            rw [← @undisturbed_iff m ⟨bs.data, bs.size + totalSize vs, bs.capacity⟩ vs hdst bs.size.toNat hvs
              (show _ ≤ bs.capacity by omega)]
            constructor
            · intro hall
              refine .inr fun u => ?_
              obtain ⟨m', dst, hok, hcontents⟩ := hall u
              rw [hcall u] at hok
              obtain ⟨rfl, rfl⟩ := Prod.mk.inj (Except.ok.inj hok)
              rw [hread u, hfront] at hcontents
              exact List.append_cancel_left hcontents
            · rintro (hno | hall) u
              · omega
              · refine ⟨_, _, hcall u, ?_⟩
                rw [hread u, hfront, hall u]
          · -- in a new allocation
            refine ⟨fun _ => .inl (by omega), fun _ u => ?_⟩
            have hall : ∀ v ∈ .window bs :: vs, v.Within m := by
              intro v hv
              rcases List.mem_cons.mp hv with rfl | hv
              · exact h.toWithin
              · exact hvs v hv
            have htotal : bs.size + totalSize vs = totalSize (.window bs :: vs) := by
              simp only [totalSize, List.map_cons, List.sum_cons, View.size]
              omega
            obtain ⟨m₁, dst, hrun, -⟩ := allocate_fresh junk m (totalSize (.window bs :: vs))
            rw [htotal] at hsizes hzero hroom
            refine ⟨_, dst, ?_, append_allocated junk u hall hrun⟩
            simp only [memberAppend, List.isEmpty_cons, Bool.false_eq_true, if_false, byteSpanMemberAppend, hargs, hsizes, bind,
              Except.bind, hzero, hroom, hrun]
            rw [member_allocated]
      · rename_i hlarge
        rw [if_neg hlarge] at hsizes
        intro u
        simp only [memberAppend, List.isEmpty_cons, Bool.false_eq_true, if_false, byteSpanMemberAppend, hargs, hsizes, bind,
          Except.bind]

/-- The free function returns the bytes its arguments had at the call; the
method does so too, whatever `memcpy` does to ranges that overlap, exactly if it
allocates or no argument is disturbed. -/
theorem append_concatenates (junk : Nat → Nat → UInt8) (h : bs.Fits m) {args : List Arg} (hargs : tailSlices 2 args = .ok vs)
    (hvs : ∀ v ∈ vs, v.Within m) :
    (bs.size + totalSize vs ≤ intMax →
      (∀ u, ∃ m' dst, nonMemberAppend u junk m (.nil :: args) = .ok (m', dst) ∧ dst.read m' = bytesOf m vs) ∧
      (∀ u, ∃ m' dst, nonMemberAppend u junk m (.span bs :: args) = .ok (m', dst) ∧ dst.read m' = bs.read m ++ bytesOf m vs) ∧
      ((∀ u, ∃ m' dst, memberAppend u junk m bs args = .ok (m', dst) ∧ dst.read m' = bs.read m ++ bytesOf m vs) ↔
        bs.capacity < bs.size + totalSize vs ∨ Undisturbed m bs.data bs.size.toNat vs)) ∧
    (intMax < bs.size + totalSize vs → ∀ u, nonMemberAppend u junk m (.span bs :: args) = .error .overflow ∧
      memberAppend u junk m bs args = .error .overflow) := by
  have hnonneg := h.size_nonneg
  have hnil : tailSlices 1 (.nil :: args) = .ok (.literal [] :: vs) := by
    simp only [tailSlices, Arg.viewOr, bind, Except.bind, hargs]
  have hself : tailSlices 1 (.span bs :: args) = .ok (.window bs :: vs) := by
    simp only [tailSlices, Arg.viewOr, Arg.view, bind, Except.bind, hargs]
  have hnone : ∀ v ∈ View.literal [] :: vs, v.Within m := by
    intro v hv
    rcases List.mem_cons.mp hv with rfl | hv
    · exact (by decide : (0 : Int) ≤ intMax)
    · exact hvs v hv
  have hall : ∀ v ∈ View.window bs :: vs, v.Within m := by
    intro v hv
    rcases List.mem_cons.mp hv with rfl | hv
    · exact h.toWithin
    · exact hvs v hv
  have hnoneSize : totalSize (.literal [] :: vs) = totalSize vs := by simp [totalSize, View.size]
  have hallSize : (totalSize (.window bs :: vs) : Int) = bs.size + totalSize vs := by
    simp only [totalSize, List.map_cons, List.sum_cons, View.size]
    omega
  have hmethod := memberAppend_contents junk h hargs hvs
  refine ⟨fun hle => ⟨fun u => ?_, fun u => ?_, ?_⟩, fun hlarge u => ⟨?_, ?_⟩⟩
  · have hfree := nonMemberAppend_contents junk hnil hnone u
    rwa [if_pos (by omega)] at hfree
  · have hfree := nonMemberAppend_contents junk hself hall u
    rwa [if_pos (by omega)] at hfree
  · rwa [if_pos hle] at hmethod
  · have hfree := nonMemberAppend_contents junk hself hall u
    rwa [if_neg (by omega)] at hfree
  · rw [if_neg (by omega)] at hmethod
    exact hmethod u

end

/-- The first byte of `"abcd"`. -/
def firstByte : Span := ⟨some ⟨0, 0⟩, 1, 4⟩

theorem append_concatenates_string :
    firstByte.Fits [[97, 98, 99, 100]] ∧ ∀ u, ∃ m' dst,
      memberAppend u (fun _ _ => 0) [[97, 98, 99, 100]] firstByte [.string [122], .nil] = .ok (m', dst) ∧
        dst.read m' = [97, 122] := by
  have hin : firstByte.Fits [[97, 98, 99, 100]] := by
    refine ⟨⟨by decide, by decide, nofun, ?_⟩, by decide⟩
    intro p hp
    cases hp
    decide
  have hvs : ∀ v ∈ [View.literal [122], View.literal []], v.Within [[97, 98, 99, 100]] := by
    intro v hv
    rcases List.mem_cons.mp hv with rfl | hv
    · exact (by decide : (1 : Int) ≤ intMax)
    · obtain rfl := List.mem_singleton.mp hv
      exact (by decide : (0 : Int) ≤ intMax)
  obtain ⟨-, -, hiff⟩ := (@append_concatenates _ _ _ (fun _ _ => 0) hin [.string [122], .nil] rfl hvs).1 (by decide)
  refine ⟨hin, hiff.mpr (.inr fun done v rest heq => ⟨?_, ?_⟩)⟩
  · rintro p bs - rfl
    have hmem : View.window bs ∈ [View.literal [122], View.literal []] := by simp [heq]
    simp at hmem
  · have hmem : v ∈ [View.literal [122], View.literal []] := by simp [heq]
    rcases List.mem_cons.mp hmem with rfl | hv
    · rfl
    · obtain rfl := List.mem_singleton.mp hv
      rfl

/-- `append` of `"z"` and of the second byte to the first byte of `"abcd"`: the
second byte is gone when it is copied. -/
theorem appended_slice_overwritten :
    (∀ u, memberAppend u (fun _ _ => 0) [[97, 98, 99, 100]] firstByte [.string [122], .span ⟨some ⟨0, 1⟩, 1, 3⟩] =
      .ok ([[97, 122, 122, 100]], ⟨some ⟨0, 0⟩, 3, 4⟩)) ∧
    ∀ u, nonMemberAppend u (fun _ _ => 0) [[97, 98, 99, 100]]
        [.span firstByte, .string [122], .span ⟨some ⟨0, 1⟩, 1, 3⟩] =
      .ok ([[97, 98, 99, 100], [97, 122, 98]], ⟨some ⟨1, 0⟩, 3, 3⟩) :=
  ⟨fun _ => rfl, fun _ => rfl⟩

end Emilua.Bytes
