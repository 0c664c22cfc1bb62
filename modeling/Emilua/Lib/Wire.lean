import Mathlib.Tactic

/-!
Byte-level vocabulary for fixed layouts: 64-bit little-endian words, strings
preceded by a one-byte length, and memory that starts out uninitialised.

Readers are total on lists and return `none` instead of leaving the list, so
that an access outside an object is visible to the proofs that use them.
-/
namespace Wire

abbrev Bytes := List UInt8

def leBytes : Nat → Nat → Bytes
  | 0, _ => []
  | width + 1, n => UInt8.ofNat (n % 256) :: leBytes width (n / 256)

def leNat : Bytes → Nat
  | [] => 0
  | b :: bs => b.toNat + 256 * leNat bs

@[simp] theorem leBytes_length (width n : Nat) : (leBytes width n).length = width := by
  induction width generalizing n with
  | zero => rfl
  | succ width ih => simp [leBytes, ih]

theorem leNat_leBytes (width n : Nat) (h : n < 256 ^ width) :
    leNat (leBytes width n) = n := by
  induction width generalizing n with
  | zero => simp only [pow_zero, Nat.lt_one_iff] at h; simp [leBytes, leNat, h]
  | succ width ih =>
      have hq : n / 256 < 256 ^ width := by
        rw [Nat.div_lt_iff_lt_mul (by decide)]
        simpa only [pow_succ] using h
      have hb : (UInt8.ofNat (n % 256)).toNat = n % 256 :=
        UInt8.toNat_ofNat_of_lt (Nat.mod_lt _ (by decide))
      simp only [leBytes, leNat, ih _ hq, hb]
      omega

/-- The eight bytes of a 64-bit word as the host stores them. -/
def wordBytes (w : UInt64) : Bytes := leBytes 8 w.toNat

def bytesWord (bs : Bytes) : UInt64 := UInt64.ofNat (leNat bs)

@[simp] theorem wordBytes_length (w : UInt64) : (wordBytes w).length = 8 :=
  leBytes_length 8 _

@[simp] theorem bytesWord_wordBytes (w : UInt64) : bytesWord (wordBytes w) = w := by
  have h : w.toNat < 256 ^ 8 := w.toNat_lt
  rw [bytesWord, wordBytes, leNat_leBytes 8 _ h]
  exact UInt64.ofNat_toNat

/-- Word `i` of a byte string, or `none` when the string ends before it does. -/
def wordAt (bs : Bytes) (i : Nat) : Option UInt64 :=
  if 8 * i + 8 ≤ bs.length then some (bytesWord ((bs.drop (8 * i)).take 8)) else none

theorem wordAt_isSome {bs : Bytes} {i : Nat} (h : 8 * i + 8 ≤ bs.length) :
    wordAt bs i = some (bytesWord ((bs.drop (8 * i)).take 8)) := by
  simp [wordAt, h]

/-- A word that lies in a prefix is the same word of the whole string. -/
theorem wordAt_take {bs : Bytes} {n i : Nat} (h : 8 * i + 8 ≤ n) (hn : n ≤ bs.length) :
    wordAt (bs.take n) i = wordAt bs i := by
  rw [wordAt_isSome (by simp; omega), wordAt_isSome (by omega)]
  rw [List.drop_take, List.take_take, min_eq_left (by omega)]

theorem wordAt_append_right (pre bs : Bytes) (i : Nat) (h : pre.length = 8) :
    wordAt (pre ++ bs) (i + 1) = wordAt bs i := by
  unfold wordAt
  have hlen : (8 * (i + 1) + 8 ≤ (pre ++ bs).length) ↔ (8 * i + 8 ≤ bs.length) := by
    simp only [List.length_append, h]; omega
  have hdrop : (pre ++ bs).drop (8 * (i + 1)) = bs.drop (8 * i) := by
    rw [List.drop_append, h, show 8 * (i + 1) - 8 = 8 * i by omega,
      List.drop_eq_nil_of_le (by omega), List.nil_append]
  simp only [hlen, hdrop]

theorem wordAt_wordBytes_append (w : UInt64) (bs : Bytes) :
    wordAt (wordBytes w ++ bs) 0 = some w := by
  rw [wordAt_isSome (by simp)]
  rw [Nat.mul_zero, List.drop_zero, List.take_left' (wordBytes_length w), bytesWord_wordBytes]

def wordsBytes (ws : List UInt64) : Bytes := ws.flatMap wordBytes

@[simp] theorem wordsBytes_length (ws : List UInt64) : (wordsBytes ws).length = 8 * ws.length := by
  induction ws with
  | nil => rfl
  | cons w ws ih =>
      simp only [wordsBytes, List.flatMap_cons, List.length_append, wordBytes_length,
        List.length_cons] at ih ⊢
      omega

theorem wordAt_wordsBytes_append (ws : List UInt64) (rest : Bytes) {i : Nat}
    (h : i < ws.length) : wordAt (wordsBytes ws ++ rest) i = ws[i]? := by
  induction ws generalizing i with
  | nil => simp at h
  | cons w ws ih =>
      have hcons : wordsBytes (w :: ws) ++ rest = wordBytes w ++ (wordsBytes ws ++ rest) := by
        simp [wordsBytes, List.append_assoc]
      rw [hcons]
      cases i with
      | zero => simpa using wordAt_wordBytes_append w _
      | succ i =>
          rw [wordAt_append_right _ _ _ (wordBytes_length w)]
          simpa using ih (by simpa using h)

/-! A string of at most 255 bytes behind its one-byte length. -/

def frame (s : Bytes) : Bytes := UInt8.ofNat s.length :: s

def frames (ss : List Bytes) : Bytes := ss.flatMap frame

def takeFrame : Bytes → Option (Bytes × Bytes)
  | [] => none
  | size :: bs =>
      if size.toNat ≤ bs.length then some (bs.take size.toNat, bs.drop size.toNat) else none

@[simp] theorem frame_length (s : Bytes) : (frame s).length = s.length + 1 := rfl

@[simp] theorem frames_nil : frames [] = [] := rfl

@[simp] theorem frames_cons (s : Bytes) (ss : List Bytes) :
    frames (s :: ss) = frame s ++ frames ss := rfl

@[simp] theorem frames_append (ss ts : List Bytes) : frames (ss ++ ts) = frames ss ++ frames ts := by
  simp [frames]

theorem takeFrame_frame_append (s rest : Bytes) (h : s.length ≤ 255) :
    takeFrame (frame s ++ rest) = some (s, rest) := by
  have hsize : (UInt8.ofNat s.length).toNat = s.length :=
    UInt8.toNat_ofNat_of_lt (by simpa [UInt8.size] using Nat.lt_succ_of_le h)
  simp [frame, takeFrame, hsize]

theorem takeFrame_drop (bs : Bytes) (i : Nat) :
    takeFrame (bs.drop i) =
      match bs[i]? with
      | none => none
      | some size =>
          if i + 1 + size.toNat ≤ bs.length then
            some ((bs.drop (i + 1)).take size.toNat, bs.drop (i + 1 + size.toNat))
          else none := by
  by_cases hi : i < bs.length
  · rw [List.drop_eq_getElem_cons hi, List.getElem?_eq_getElem hi]
    have hfit : (bs[i].toNat ≤ (bs.drop (i + 1)).length) ↔ (i + 1 + bs[i].toNat ≤ bs.length) := by
      rw [List.length_drop]; omega
    simp only [takeFrame, hfit, List.drop_drop]
  · rw [List.drop_eq_nil_of_le (Nat.le_of_not_lt hi), List.getElem?_eq_none (Nat.le_of_not_lt hi)]
    rfl

theorem takeFrame_drop_rest {bs s rest : Bytes} {i : Nat}
    (h : takeFrame (bs.drop i) = some (s, rest)) : rest = bs.drop (i + 1 + s.length) := by
  rw [takeFrame_drop] at h
  cases hsize : bs[i]? with
  | none => rw [hsize] at h; cases h
  | some size =>
      rw [hsize] at h
      simp only at h
      split at h
      · obtain ⟨rfl, rfl⟩ := by simpa using h
        congr 1
        simp only [List.length_take, List.length_drop]
        omega
      · cases h

theorem takeFrame_length_le {bs s rest : Bytes} (h : takeFrame bs = some (s, rest)) :
    s.length ≤ 255 := by
  cases bs with
  | nil => cases h
  | cons size bs =>
      have hlt := size.toNat_lt
      simp only [takeFrame] at h
      split at h
      · obtain ⟨rfl, -⟩ := by simpa using h
        simp only [List.length_take]
        omega
      · cases h

/-! Memory whose bytes are `none` until something is stored in them. -/

abbrev Memory := List (Option UInt8)

/-- Store bytes at an offset; `none` when they do not fit. -/
def Memory.write (mem : Memory) (offset : Nat) (bs : Bytes) : Option Memory :=
  if offset + bs.length ≤ mem.length then
    some (mem.take offset ++ bs.map some ++ mem.drop (offset + bs.length))
  else none

theorem Memory.write_middle (before middle after : Memory) (bs : Bytes)
    (h : middle.length = bs.length) :
    Memory.write (before ++ (middle ++ after)) before.length bs =
      some (before ++ (bs.map some ++ after)) := by
  have hfit : before.length + bs.length ≤ (before ++ (middle ++ after)).length := by
    simp [h]
  rw [Memory.write, if_pos hfit, List.take_left' rfl, ← List.drop_drop, List.drop_left' rfl,
    List.drop_left' h, List.append_assoc]

/-- The byte string a prefix holds, once every byte of it has been stored. -/
def Memory.contents (mem : Memory) (size : Nat) : Option Bytes :=
  if size ≤ mem.length then (mem.take size).mapM id else none

theorem mapM_id_eq_some (mem : Memory) (bs : Bytes) : mem.mapM id = some bs ↔ mem = bs.map some := by
  induction mem generalizing bs with
  | nil => cases bs <;> simp
  | cons b mem ih => cases b <;> cases bs <;> simp [Option.bind_eq_some_iff, ih, and_comm]

theorem Memory.contents_eq_some {mem : Memory} {size : Nat} {bs : Bytes}
    (h : mem.contents size = some bs) : mem.take size = bs.map some ∧ size = bs.length := by
  unfold Memory.contents at h
  split at h
  · rename_i hle
    have htake := (mapM_id_eq_some _ _).mp h
    refine ⟨htake, ?_⟩
    have hlen := congrArg List.length htake
    simpa [hle] using hlen
  · cases h

theorem Memory.contents_stored (bs : Bytes) (rest : Memory) :
    Memory.contents (bs.map some ++ rest) bs.length = some bs := by
  rw [Memory.contents, if_pos (by simp), List.take_left' (by simp)]
  exact (mapM_id_eq_some _ _).mpr rfl

theorem Memory.getElem?_of_contents {mem : Memory} {size : Nat} {bs : Bytes}
    (h : mem.contents size = some bs) {i : Nat} (hi : i < bs.length) :
    mem[i]? = some (some (bs.get ⟨i, hi⟩)) := by
  obtain ⟨htake, rfl⟩ := Memory.contents_eq_some h
  have hget : (mem.take bs.length)[i]? = (bs.map some)[i]? := by rw [htake]
  rw [List.getElem?_take_of_lt hi] at hget
  simpa [hi] using hget

end Wire
