import Mathlib.Data.List.Perm.Subperm
import Emilua.Unix.Spawn

/-!
The descriptor table of a spawned child when it calls `exec`, and what is in the
error pipe when it does not get there.
-/
namespace Emilua.Unix.Spawn
open Command

/-! What is asked for. -/

def Request.errorPipe (req : Request) : Option File := req.table.file req.closeonexecpipe

/-- The file that `extra_fds` has under a key. -/
def Request.source (req : Request) (key : Nat) : Option File := (req.extraFds key).bind req.table.file

def Stdio.wanted (t : FdTable File) (stream : Nat) (pipeEnd : File) : Stdio → Option File
  | .nil => some pipeEnd
  | .share => t.file stream
  | .handle fd => t.file fd

def Request.stream (req : Request) : Nat → Option File
  | 0 => req.stdin.wanted req.table 0 (.readEnd 0)
  | 1 => req.stdout.wanted req.table 1 (.writeEnd 1)
  | _ => req.stderr.wanted req.table 2 (.writeEnd 2)

def Call.isExec : Call → Bool
  | .fexecve _ | .execve => true
  | _ => false

/-- The table with which `exec` is called, by the call `c`. -/
structure Right (req : Request) (t : FdTable File) (c : Call) : Prop where
  streams : ∀ n < 3, t.file n = req.stream n
  extra : ∀ key, 3 ≤ key → key < 10 → t.file key = req.source key
  beyond : ∀ n, 10 ≤ n → t.exec.entry n = none
  program : ∀ p, req.program = some p → ∃ fd, c = .fexecve fd ∧ t.file fd = req.table.file p

def final : Except Failed Child → Child
  | .ok s => s
  | .error e => e.child

structure Spawned (req : Request) (result : Except Failed Child) : Prop where
  exec : ∀ c r, (c, r) ∈ (final result).calls → c.isExec = true →
    Right req (final result).vars.table c
  reported : ∀ c code, (c, some code) ∈ (final result).calls → (∀ fd, c ≠ .close fd) →
    ∃ s fd, result = .error ⟨s, fd, code⟩ ∧ s.vars.table.file fd = req.errorPipe

/-! `nextfd`. -/

theorem skipBusy_spec (busy : List Nat) (fuel idx : Nat) :
    idx ≤ skipBusy busy fuel idx ∧ (∀ m, idx ≤ m → m < skipBusy busy fuel idx → m ∈ busy) ∧
      (skipBusy busy fuel idx ∉ busy ∨ skipBusy busy fuel idx = idx + fuel) := by
  induction fuel generalizing idx with
  | zero => exact ⟨Nat.le_refl _, fun m hle hlt => absurd hlt (Nat.not_lt.mpr hle), .inr rfl⟩
  | succ fuel ih =>
      rw [skipBusy]
      by_cases hbusy : busy.contains idx = true
      · rw [if_pos hbusy]
        obtain ⟨hle, hpassed, hend⟩ := ih (idx + 1)
        refine ⟨by omega, fun m hm hlt => ?_, hend.imp_right (by omega)⟩
        by_cases heq : m = idx
        · rw [heq]
          simpa using hbusy
        · exact hpassed m (by omega) hlt
      · rw [if_neg hbusy]
        exact ⟨Nat.le_refl _, fun m hle hlt => absurd hlt (Nat.not_lt.mpr hle), .inl (by simpa using hbusy)⟩

/-- The first number from `idx` on that is not busy. -/
theorem nextfd_spec (busy : List Nat) (idx : Nat) :
    idx ≤ nextfd busy idx ∧ (∀ m, idx ≤ m → m < nextfd busy idx → m ∈ busy) ∧ nextfd busy idx ∉ busy := by
  obtain ⟨hle, hpassed, hend⟩ := skipBusy_spec busy busy.length idx
  refine ⟨hle, hpassed, ?_⟩
  rcases hend with hfree | hlast
  · exact hfree
  · intro hin
    have hsub : List.range' idx (busy.length + 1) ⊆ busy := by
      intro m hm
      obtain ⟨hge, hlt⟩ := List.mem_range'_1.mp hm
      by_cases heq : m = idx + busy.length
      · rw [heq, ← hlast]
        exact hin
      · exact hpassed m hge (by omega)
    have hlen := (List.subperm_of_subset List.nodup_range' hsub).length_le
    rw [List.length_range'] at hlen
    omega

/-! Rules for system calls. -/

/-- No call has failed yet, and `exec` has not been called. -/
structure Going (calls : List (Call × Option Nat)) : Prop where
  quiet : ∀ c code, (c, some code) ∈ calls → ∃ fd, c = .close fd
  early : ∀ c r, (c, r) ∈ calls → c.isExec = false

/-- A call before `exec` has failed. -/
structure Reported (req : Request) (faults : Nat → Option Nat) (e : Failed) : Prop where
  latest : ∃ c rest, e.child.calls = (c, some e.code) :: rest ∧ Going rest ∧ c.isExec = false
  pipe : e.child.vars.table.file e.fd = req.errorPipe
  fault : ∃ k, faults k ≠ none

/-- A condition on what the child has while it is going on. -/
def On (P : Vars → Prop) (s : Child) : Prop := Going s.calls ∧ P s.vars

theorem Going.cons {calls : List (Call × Option Nat)} (h : Going calls) {c : Call} {r : Option Nat}
    (hr : r = none ∨ ∃ fd, c = .close fd) (hc : c.isExec = false) : Going ((c, r) :: calls) where
  quiet c' code hin := by
    rcases List.mem_cons.mp hin with heq | hin
    · obtain ⟨rfl, rfl⟩ := Prod.mk.inj heq
      exact hr.resolve_left (Option.some_ne_none _)
    · exact h.quiet c' code hin
  early c' r' hin := by
    rcases List.mem_cons.mp hin with heq | hin
    · rw [(Prod.mk.inj heq).1]
      exact hc
    · exact h.early c' r' hin

section
variable {req : Request} {faults : Nat → Option Nat} {P Q : Vars → Prop} {replyTo : Vars → Nat}

theorem call_spec {c : Vars → Call} {act : Vars → Option Vars} (hexec : ∀ v, (c v).isExec = false)
    (h : ∀ v, P v → v.table.file (replyTo v) = req.errorPipe ∧ ∃ v', act v = some v' ∧ Q v') :
    Triple (Reported req faults) (On P) (call faults replyTo c act) (On Q) := by
  rintro s ⟨hgoing, hP⟩
  obtain ⟨hpipe, v', hact, hQ⟩ := h s.vars hP
  unfold call
  cases hfault : faults s.calls.length with
  | some code =>
      refine ⟨⟨c s.vars, s.calls, rfl, hgoing, hexec _⟩, hpipe, s.calls.length, ?_⟩
      rw [hfault]
      exact Option.some_ne_none _
  | none =>
      simp only
      rw [hact]
      exact ⟨hgoing.cons (.inl rfl) (hexec _), hQ⟩

theorem dup2_spec {src dst : Vars → Nat}
    (h : ∀ v, P v → v.table.file (replyTo v) = req.errorPipe ∧ ∃ f, v.table.file (src v) = some f ∧
      ∀ t : FdTable File, t.file (dst v) = some f → (∀ m, m ≠ dst v → t.entry m = v.table.entry m) →
        Q { v with table := t }) :
    Triple (Reported req faults) (On P) (dup2 faults replyTo src dst) (On Q) := by
  refine call_spec (fun _ => rfl) fun v hP => ?_
  obtain ⟨hpipe, f, hf, hQ⟩ := h v hP
  obtain ⟨t, ht, hdst, hsame⟩ := FdTable.dup2_of_open (dst v) hf
  exact ⟨hpipe, _, by rw [ht]; rfl, hQ t hdst hsame⟩

theorem setCloexec_spec {n : Nat}
    (h : ∀ v, P v → v.table.file 10 = req.errorPipe ∧ ∃ f, v.table.file n = some f ∧
      ∀ t : FdTable File, t.entry n = some ⟨f, true⟩ → (∀ m, m ≠ n → t.entry m = v.table.entry m) →
        Q { v with table := t }) :
    Triple (Reported req faults) (On P) (setCloexec faults n) (On Q) := by
  refine call_spec (fun _ => rfl) fun v hP => ?_
  obtain ⟨hpipe, f, hf, hQ⟩ := h v hP
  obtain ⟨t, ht, hn, hsame⟩ := FdTable.setCloexec_of_open hf
  exact ⟨hpipe, _, by rw [ht]; rfl, hQ t hn hsame⟩

theorem closeFd_spec {n : Nat} (h : ∀ v, P v → Q { v with table := v.table.close n }) :
    Triple (Reported req faults) (On P) (closeFd faults n) (On Q) := by
  rintro s ⟨hgoing, hP⟩
  exact ⟨hgoing.cons (.inr ⟨n, rfl⟩) rfl, h s.vars hP⟩

end

/-! The standard streams. -/

section
variable {req : Request}

theorem Request.open_of_given {n : Nat} (h : n ∈ req.numbers) : ∃ f, req.table.file n = some f := by
  have hentry := (req.given n h).2
  exact Option.ne_none_iff_exists'.mp fun hnone => hentry (FdTable.file_eq_none_iff.mp hnone)

theorem Request.pipe_given (req : Request) : req.closeonexecpipe ∈ req.numbers := by
  unfold Handles.numbers
  simp

theorem Request.program_given {p : Nat} (h : req.program = some p) : p ∈ req.numbers := by
  unfold Handles.numbers
  simp [h]

theorem Request.source_given {n : Nat} (h : n ∈ req.sources) : n ∈ req.numbers := by
  unfold Handles.numbers
  simp [h]

/-- The numbers below `k` are redirected already. -/
structure Streams (req : Request) (k : Nat) (v : Vars) : Prop where
  args : v.args = req.arguments
  idx : v.idx = 10
  kept : ∀ n, 3 ≤ n → req.table.entry n ≠ none → v.table.entry n = req.table.entry n
  done : ∀ n < k, v.table.file n = req.stream n
  todo : ∀ n, k ≤ n → n < 3 → v.table.entry n = req.table.entry n

theorem Streams.file {k n : Nat} {v : Vars} (h : Streams req k v) (hn : n ∈ req.numbers) :
    v.table.file n = req.table.file n := by
  obtain ⟨hge, hopen⟩ := req.given n hn
  exact FdTable.file_congr (h.kept n hge hopen)

theorem Streams.pipe {k : Nat} {v : Vars} (h : Streams req k v) :
    v.table.file v.pipe = req.errorPipe := by
  unfold Vars.pipe
  rw [h.args]
  exact h.file req.pipe_given

theorem Request.stream_open (req : Request) (n : Nat) : ∃ f, req.stream n = some f := by
  have hwanted : ∀ (k : Nat) (pipeEnd : File) (io : Stdio), k < 3 → (∀ m ∈ io.numbers, m ∈ req.numbers) →
      ∃ f, io.wanted req.table k pipeEnd = some f := by
    intro k pipeEnd io hk hio
    cases io with
    | nil => exact ⟨pipeEnd, rfl⟩
    | share =>
        exact Option.ne_none_iff_exists'.mp fun hnone => req.std k hk (FdTable.file_eq_none_iff.mp hnone)
    | handle fd => exact Request.open_of_given (hio fd (List.mem_singleton_self fd))
  unfold Request.stream Handles.numbers at *
  split
  · exact hwanted 0 _ _ (by omega) (fun m hm => by simp [hm])
  · exact hwanted 1 _ _ (by omega) (fun m hm => by simp [hm])
  · exact hwanted 2 _ _ (by omega) (fun m hm => by simp [hm])

/-- One stream after the other. -/
theorem redirect_spec {faults : Nat → Option Nat} {k : Nat} (io : Stdio) {pipeEnd : File}
    {proc : SpawnArguments → Option Nat} {side : Nat × Nat → Nat} (hk : k < 3)
    (hproc : proc req.arguments = io.proc k) (hio : ∀ m ∈ io.numbers, m ∈ req.numbers)
    (hwanted : req.stream k = io.wanted req.table k pipeEnd)
    (hside : ∀ t : FdTable File, (t.pipe (.readEnd k) (.writeEnd k)).1.file
      (side (t.pipe (.readEnd k) (.writeEnd k)).2) = some pipeEnd) :
    Triple (Reported req faults) (On (Streams req k)) (redirect faults k proc side)
      (On (Streams req (k + 1))) := by
  have hnext : ∀ (v : Vars) (t : FdTable File), Streams req k v → t.file k = req.stream k →
      (∀ m, m ≠ k → t.entry m = v.table.entry m) → Streams req (k + 1) { v with table := t } := by
    intro v t hv hfile hsame
    refine ⟨hv.args, hv.idx, ?_, ?_, ?_⟩
    · intro n hn hopen
      rw [hsame n (by omega)]
      exact hv.kept n hn hopen
    · intro n hn
      by_cases heq : n = k
      · rw [heq]
        exact hfile
      · rw [FdTable.file_congr (hsame n heq)]
        exact hv.done n (by omega)
    · intro n hn hlt
      rw [hsame n (by omega)]
      exact hv.todo n (by omega) hlt
  rintro s ⟨hgoing, hs⟩
  have hargs : proc s.vars.args = io.proc k := by rw [hs.args, hproc]
  unfold redirect
  rw [hargs]
  cases io with
  | nil =>
      refine (Triple.seq (P := On (Streams req k))
        (Q := On fun v => Streams req k v ∧ v.table.file (side v.pipefd) = some pipeEnd) ?_ ?_) s ⟨hgoing, hs⟩
      · unfold makePipe
        refine call_spec (fun _ => rfl) fun v hv => ⟨hv.pipe, _, rfl, ⟨hv.args, hv.idx, ?_, ?_, ?_⟩, hside _⟩
        · intro n hn hopen
          have hentry := hv.kept n hn hopen
          rw [← hentry]
          exact (FdTable.pipe_spec ..).2.2 n (by rwa [hentry])
        · intro n hn
          have hfile := hv.done n hn
          obtain ⟨f, hf⟩ := req.stream_open n
          rw [← hfile]
          refine FdTable.file_congr ((FdTable.pipe_spec ..).2.2 n fun hnone => ?_)
          rw [FdTable.file_eq_none_iff.mpr hnone, hf] at hfile
          cases hfile
        · intro n hn hlt
          have hentry := hv.todo n hn hlt
          rw [← hentry]
          exact (FdTable.pipe_spec ..).2.2 n (by rw [hentry]; exact req.std n hlt)
      · refine dup2_spec fun v hv => ⟨hv.1.pipe, pipeEnd, hv.2, fun t ht hsame => ?_⟩
        exact hnext v t hv.1 (by rw [ht, hwanted]; rfl) hsame
  | share =>
      simp only [Stdio.proc, if_true]
      change On (Streams req (k + 1)) s
      refine ⟨hgoing, hnext s.vars s.vars.table hs ?_ fun _ _ => rfl⟩
      rw [hwanted]
      exact FdTable.file_congr (hs.todo k (Nat.le_refl k) hk)
  | handle fd =>
      have hfd := hio fd (List.mem_singleton_self fd)
      obtain ⟨f, hf⟩ := Request.open_of_given hfd
      have hne : fd ≠ k := by
        have hge := (req.given fd hfd).1
        omega
      simp only [Stdio.proc]
      rw [if_neg hne]
      refine (dup2_spec (P := Streams req k) fun v hv => ⟨hv.pipe, f, ?_, fun t ht hsame => ?_⟩)
        s ⟨hgoing, hs⟩
      · rw [hv.file hfd]
        exact hf
      · exact hnext v t hv (by rw [ht, hwanted]; exact hf.symm) hsame

/-! Moving the sources out of the way. -/

/-- Every source still refers to what it is to give. -/
structure Sources (req : Request) (v : Vars) : Prop where
  streams : ∀ n < 3, v.table.file n = req.stream n
  pipe : v.table.file v.pipe = req.errorPipe
  program : v.args.programfd.map v.table.file = req.program.map req.table.file
  extra : ∀ kv ∈ v.args.extraFds, v.table.file kv.2 = req.source kv.1
  keys : v.args.extraFds.map Prod.fst = req.pairs.map Prod.fst

theorem Handles.mem_pairs (h : Handles) {i fd : Nat} :
    (i, fd) ∈ h.pairs ↔ (3 ≤ i ∧ i < 10) ∧ h.extraFds i = some fd := by
  unfold Handles.pairs
  rw [List.mem_filterMap]
  constructor
  · rintro ⟨j, hj, hfd⟩
    obtain ⟨fd', hfd', heq⟩ := Option.map_eq_some_iff.mp hfd
    obtain ⟨rfl, rfl⟩ := Prod.mk.inj heq
    exact ⟨List.mem_range'_1.mp hj, hfd'⟩
  · rintro ⟨hi, hfd⟩
    exact ⟨i, List.mem_range'_1.mpr hi, by rw [hfd]; rfl⟩

/-- What is under a key of `extra_fds` is open. -/
theorem Request.source_open {key : Nat} (h : key ∈ req.pairs.map Prod.fst) : ∃ f, req.source key = some f := by
  obtain ⟨⟨i, fd⟩, hin, rfl⟩ := List.mem_map.mp h
  have hsource : fd ∈ req.sources := List.mem_map.mpr ⟨(i, fd), hin, rfl⟩
  obtain ⟨f, hf⟩ := Request.open_of_given (Request.source_given hsource)
  refine ⟨f, ?_⟩
  unfold Request.source
  rw [(req.mem_pairs.mp hin).2]
  exact hf

theorem Request.source_closed {key : Nat} (hkey : 3 ≤ key ∧ key < 10)
    (h : key ∉ req.pairs.map Prod.fst) : req.source key = none := by
  unfold Request.source
  cases hfd : req.extraFds key with
  | none => rfl
  | some fd => exact absurd (List.mem_map.mpr ⟨(key, fd), req.mem_pairs.mpr ⟨hkey, hfd⟩, rfl⟩) h

theorem Sources.of_streams {v : Vars} (h : Streams req 3 v) : Sources req v where
  streams := h.done
  pipe := h.pipe
  program := by
    rw [h.args]
    change req.program.map _ = _
    cases hp : req.program with
    | none => rfl
    | some p => exact congrArg some (h.file (Request.program_given hp))
  extra kv hkv := by
    rw [h.args] at hkv
    have hin : kv.2 ∈ req.sources := List.mem_map.mpr ⟨kv, hkv, rfl⟩
    rw [h.file (Request.source_given hin)]
    unfold Request.source
    rw [(req.mem_pairs.mp hkv).2]
    rfl
  keys := by
    rw [h.args]
    rfl

theorem Sources.pipe_open {v : Vars} (h : Sources req v) : ∃ f, v.table.file v.pipe = some f := by
  rw [h.pipe]
  exact Request.open_of_given req.pipe_given

theorem Sources.program_open {v : Vars} (h : Sources req v) {p : Nat} (hp : v.args.programfd = some p) :
    ∃ f, v.table.file p = some f := by
  have hfile := h.program
  rw [hp] at hfile
  obtain ⟨q, hq, hsame⟩ := Option.map_eq_some_iff.mp hfile.symm
  rw [← hsame]
  exact Request.open_of_given (Request.program_given hq)

theorem Sources.extra_open {v : Vars} (h : Sources req v) {kv : Nat × Nat} (hkv : kv ∈ v.args.extraFds) :
    ∃ f, v.table.file kv.2 = some f := by
  rw [h.extra kv hkv]
  refine Request.source_open ?_
  rw [← h.keys]
  exact List.mem_map_of_mem hkv

/-- Files at numbers that are no sources may change. -/
theorem Sources.frame {v : Vars} {t : FdTable File} (h : Sources req v)
    (hstreams : ∀ n < 3, t.file n = v.table.file n) (hbusy : ∀ n ∈ v.args.busy, t.file n = v.table.file n) :
    Sources req { v with table := t } where
  streams n hn := (hstreams n hn).trans (h.streams n hn)
  pipe := (hbusy _ (List.mem_cons_self ..)).trans h.pipe
  program := by
    rw [← h.program]
    cases hp : v.args.programfd with
    | none => rfl
    | some p => exact congrArg some (hbusy p (by simp [SpawnArguments.busy, hp]))
  extra kv hkv := by
    rw [← h.extra kv hkv]
    refine hbusy kv.2 ?_
    have hin : kv.2 ∈ v.args.extraFds.map Prod.snd := List.mem_map_of_mem hkv
    simp [SpawnArguments.busy, hin]
  keys := h.keys

/-- A source is copied to a number that is not in use, and the copy is used. -/
theorem relocate_spec {faults : Nat → Option Nat} {src : Nat} {store : Nat → SpawnArguments → SpawnArguments}
    {P Q : Vars → Prop} (hsources : ∀ v, P v → Sources req v) (hidx : ∀ v, P v → 10 ≤ v.idx)
    (hopen : ∀ v, P v → ∃ f, v.table.file src = some f)
    (h : ∀ v (t : FdTable File), P v → 10 ≤ v.nextfd → t.file v.nextfd = v.table.file src →
      Sources req { v with table := t } →
      Q { v with table := t, args := store v.nextfd v.args, idx := v.nextfd + 1 }) :
    Triple (Reported req faults) (On P) (relocate faults src store) (On Q) := by
  refine Triple.seq (Q := On fun v => Q { v with args := store v.nextfd v.args, idx := v.nextfd + 1 }) ?_ ?_
  · refine dup2_spec fun v hv => ?_
    obtain ⟨f, hf⟩ := hopen v hv
    obtain ⟨hge, -, hfree⟩ := nextfd_spec v.args.busy v.idx
    have hten : 10 ≤ v.nextfd := (hidx v hv).trans hge
    refine ⟨(hsources v hv).pipe, f, hf, fun t ht hsame => ?_⟩
    refine h v t hv hten (ht.trans hf.symm) ((hsources v hv).frame ?_ ?_)
    · intro n hn
      exact FdTable.file_congr (hsame n (by omega))
    · rintro n hn
      refine FdTable.file_congr (hsame n ?_)
      rintro rfl
      exact hfree hn
  · exact .assign fun s hs => hs

def Request.pipeAt (req : Request) : Nat :=
  if req.closeonexecpipe < 10 then nextfd req.arguments.busy 10 else req.closeonexecpipe

def Request.idxAfter (req : Request) : Nat := if req.closeonexecpipe < 10 then req.pipeAt + 1 else 10

def Request.programAt (req : Request) : Option Nat :=
  req.program.map fun p => if p < 10 then nextfd (req.pipeAt :: p :: req.sources) req.idxAfter else p

theorem Request.pipeAt_ge (req : Request) : 10 ≤ req.pipeAt := by
  unfold Request.pipeAt
  split
  · exact (nextfd_spec _ _).1
  · omega

theorem Request.idxAfter_ge (req : Request) : 10 ≤ req.idxAfter := by
  have hge := req.pipeAt_ge
  unfold Request.idxAfter
  split <;> omega

theorem Request.programAt_ge {p : Nat} (h : req.programAt = some p) : 10 ≤ p := by
  obtain ⟨q, -, rfl⟩ := Option.map_eq_some_iff.mp h
  split
  · exact req.idxAfter_ge.trans (nextfd_spec _ _).1
  · omega

structure PipeMoved (req : Request) (v : Vars) : Prop where
  sources : Sources req v
  args : v.args = { req.arguments with closeonexecpipe := req.pipeAt }
  idx : v.idx = req.idxAfter

structure ProgramMoved (req : Request) (v : Vars) : Prop where
  sources : Sources req v
  args : v.args = { req.arguments with closeonexecpipe := req.pipeAt, programfd := req.programAt }
  idx : 10 ≤ v.idx

/-- The sources at the positions `done` are out of the way. -/
structure SourcesMoved (req : Request) (done : List Nat) (v : Vars) : Prop where
  sources : Sources req v
  pipe : v.pipe = req.pipeAt
  program : v.args.programfd = req.programAt
  idx : 10 ≤ v.idx
  moved : ∀ i ∈ done, ∀ kv, v.args.extraFds[i]? = some kv → 10 ≤ kv.2

variable {faults : Nat → Option Nat}

theorem relocatePipe_spec :
    Triple (Reported req faults) (On (Streams req 3)) (relocatePipe faults) (On (PipeMoved req)) := by
  rintro s ⟨hgoing, hs⟩
  have hpipe : s.vars.args.closeonexecpipe = req.closeonexecpipe := by rw [hs.args]; rfl
  unfold relocatePipe
  rw [hpipe]
  by_cases hlow : req.closeonexecpipe < 10
  · rw [if_pos hlow]
    refine relocate_spec (P := Streams req 3) (fun v hv => .of_streams hv) (fun v hv => hv.idx.ge)
      (fun v hv => ?_) (fun v t hv hten hcopy hsources => ?_) s ⟨hgoing, hs⟩
    · rw [hv.file req.pipe_given]
      exact Request.open_of_given req.pipe_given
    · have hat : v.nextfd = req.pipeAt := by
        unfold Vars.nextfd Request.pipeAt
        rw [if_pos hlow, hv.args, hv.idx]
      have hsrc : t.file v.nextfd = req.errorPipe := by
        rw [hcopy, hv.file req.pipe_given]
        rfl
      refine ⟨⟨hsources.streams, hsrc, hsources.program, hsources.extra, hsources.keys⟩, ?_, ?_⟩
      · simp only
        rw [hv.args, hat]
      · unfold Request.idxAfter
        rw [if_pos hlow, hat]
  · rw [if_neg hlow]
    refine ⟨hgoing, .of_streams hs, ?_, ?_⟩
    · rw [hs.args]
      unfold Request.pipeAt
      rw [if_neg hlow]
      rfl
    · unfold Request.idxAfter
      rw [if_neg hlow]
      exact hs.idx

theorem relocateProgram_spec :
    Triple (Reported req faults) (On (PipeMoved req)) (relocateProgram faults) (On (ProgramMoved req)) := by
  rintro s ⟨hgoing, hs⟩
  have hprogram : s.vars.args.programfd = req.program := by rw [hs.args]; rfl
  have hstay : req.programAt = req.program → On (ProgramMoved req) s := by
    intro hsame
    refine ⟨hgoing, hs.sources, ?_, ?_⟩
    · rw [hs.args, hsame]
      rfl
    · rw [hs.idx]
      exact req.idxAfter_ge
  unfold relocateProgram
  rw [hprogram]
  cases hp : req.program with
  | none =>
      refine hstay ?_
      unfold Request.programAt
      rw [hp]
      rfl
  | some p =>
      by_cases hlow : p < 10
      · simp only
        rw [if_pos hlow]
        refine relocate_spec (P := PipeMoved req) (fun v hv => hv.sources) (fun v hv => ?_)
          (fun v hv => ?_) (fun v t hv hten hcopy hsources => ?_) s ⟨hgoing, hs⟩
        · rw [hv.idx]
          exact req.idxAfter_ge
        · refine hv.sources.program_open ?_
          rw [hv.args]
          exact hp
        · have hold : v.args.programfd = some p := by rw [hv.args]; exact hp
          have hat : some v.nextfd = req.programAt := by
            unfold Vars.nextfd Request.programAt
            rw [hp, Option.map_some, if_pos hlow, hv.args, hv.idx]
            simp only [SpawnArguments.busy, Request.arguments, hp, Option.toList_some,
              List.singleton_append]
            rfl
          have hfile : some (t.file v.nextfd) = req.program.map req.table.file := by
            rw [hcopy, ← hv.sources.program, hold]
            rfl
          refine ⟨⟨hsources.streams, hsources.pipe, hfile, hsources.extra, hsources.keys⟩, ?_, ?_⟩
          · simp only
            rw [hv.args, hat]
          · exact hten.trans (Nat.le_succ _)
      · simp only
        rw [if_neg hlow]
        refine hstay ?_
        unfold Request.programAt
        rw [hp, Option.map_some, if_neg hlow]

theorem map_fst_set {l : List (Nat × Nat)} {i key src : Nat} (h : l[i]? = some (key, src)) (n : Nat) :
    (l.set i (key, n)).map Prod.fst = l.map Prod.fst := by
  rw [List.map_set]
  apply List.ext_getElem?
  intro j
  rw [List.getElem?_set]
  split
  · rename_i heq
    subst heq
    have hlt := (List.getElem?_eq_some_iff.mp h).1
    rw [List.length_map, if_pos hlt, List.getElem?_map, h]
    rfl
  · rfl

theorem relocateSource_spec (done : List Nat) (i : Nat) :
    Triple (Reported req faults) (On (SourcesMoved req done)) (relocateSource faults i)
      (On (SourcesMoved req (done ++ [i]))) := by
  have hadd : ∀ v, SourcesMoved req done v → (∀ kv, v.args.extraFds[i]? = some kv → 10 ≤ kv.2) →
      SourcesMoved req (done ++ [i]) v := by
    intro v hv hi
    refine ⟨hv.sources, hv.pipe, hv.program, hv.idx, fun j hj => ?_⟩
    rcases List.mem_append.mp hj with hj | hj
    · exact hv.moved j hj
    · rw [List.mem_singleton.mp hj]
      exact hi
  rintro s ⟨hgoing, hs⟩
  unfold relocateSource
  cases hi : s.vars.args.extraFds[i]? with
  | none => exact ⟨hgoing, hadd s.vars hs fun kv hkv => absurd (hi.symm.trans hkv) (by simp)⟩
  | some kv =>
      obtain ⟨key, src⟩ := kv
      by_cases hhigh : 9 < src
      · simp only
        rw [if_pos hhigh]
        refine ⟨hgoing, hadd s.vars hs fun kv hkv => ?_⟩
        have heq := Option.some.inj (hi.symm.trans hkv)
        rw [← heq]
        exact hhigh
      · simp only
        rw [if_neg hhigh]
        refine relocate_spec (P := fun v => SourcesMoved req done v ∧ v.args.extraFds[i]? = some (key, src))
          (fun v hv => hv.1.sources) (fun v hv => hv.1.idx)
          (fun v hv => hv.1.sources.extra_open (List.mem_of_getElem? hv.2))
          (fun v t hv hten hcopy hsources => ?_) s ⟨hgoing, hs, hi⟩
        obtain ⟨hv, hat⟩ := hv
        have hsource : t.file v.nextfd = req.source key := by
          rw [hcopy]
          exact hv.sources.extra (key, src) (List.mem_of_getElem? hat)
        refine ⟨⟨hsources.streams, hsources.pipe, hsources.program, ?_, ?_⟩, hv.pipe, hv.program,
          hten.trans (Nat.le_succ _), ?_⟩
        · intro kv hkv
          rcases List.mem_or_eq_of_mem_set hkv with hold | rfl
          · exact hsources.extra kv hold
          · exact hsource
        · rw [map_fst_set hat]
          exact hsources.keys
        · intro j hj kv hkv
          rw [List.getElem?_set] at hkv
          split at hkv
          · split at hkv
            · rw [← Option.some.inj hkv]
              exact hten
            · cases hkv
          · rename_i hne
            rcases List.mem_append.mp hj with hj | hj
            · exact hv.moved j hj kv hkv
            · exact absurd (List.mem_singleton.mp hj).symm hne

theorem relocateSources_spec :
    Triple (Reported req faults) (On (ProgramMoved req)) (relocateSources faults)
      (On fun v => SourcesMoved req (List.range req.pairs.length) v ∧ v.args.extraFds.length = req.pairs.length) := by
  rintro s ⟨hgoing, hs⟩
  have hlen : s.vars.args.extraFds.length = req.pairs.length := by
    rw [hs.args]
    rfl
  have hstart : SourcesMoved req [] s.vars := by
    refine ⟨hs.sources, ?_, ?_, hs.idx, nofun⟩
    · unfold Vars.pipe
      rw [hs.args]
    · rw [hs.args]
  unfold relocateSources
  rw [hlen]
  refine ((Triple.each (I := fun done => On (SourcesMoved req done)) (List.range req.pairs.length)
    (fun done i _ _ => relocateSource_spec done i) [] rfl).weaken (fun _ h => h) ?_) s ⟨hgoing, hstart⟩
  rintro s' ⟨hgoing', hs'⟩
  refine ⟨hgoing', hs', ?_⟩
  have hkeys := congrArg List.length hs'.sources.keys
  rw [List.length_map, List.length_map] at hkeys
  exact hkeys

/-! Giving the numbers from 3 to 9 away. -/

/-- The sources are at 10 and above; the numbers `done` are as the child shall
have them. -/
structure Destined (req : Request) (done : List Nat) (v : Vars) : Prop where
  sources : Sources req v
  pipe : v.pipe = req.pipeAt
  program : v.args.programfd = req.programAt
  extra : ∀ kv ∈ v.args.extraFds, 10 ≤ kv.2
  done : ∀ i ∈ done, v.table.file i = req.source i

theorem SourcesMoved.destined {v : Vars} (h : SourcesMoved req (List.range req.pairs.length) v)
    (hlen : v.args.extraFds.length = req.pairs.length) : Destined req [] v where
  sources := h.sources
  pipe := h.pipe
  program := h.program
  extra kv hkv := by
    obtain ⟨i, hi⟩ := List.mem_iff_getElem?.mp hkv
    refine h.moved i (List.mem_range.mpr ?_) kv hi
    rw [← hlen]
    exact (List.getElem?_eq_some_iff.mp hi).1
  done := nofun

theorem Destined.busy_ge {done : List Nat} {v : Vars} (h : Destined req done v) :
    ∀ n ∈ v.args.busy, 10 ≤ n := by
  intro n hn
  unfold SpawnArguments.busy at hn
  rcases List.mem_cons.mp hn with rfl | hn
  · have hpipe := h.pipe
    unfold Vars.pipe at hpipe
    rw [hpipe]
    exact req.pipeAt_ge
  · rcases List.mem_append.mp hn with hn | hn
    · rw [Option.mem_toList, h.program] at hn
      exact Request.programAt_ge hn
    · obtain ⟨kv, hkv, rfl⟩ := List.mem_map.mp hn
      exact h.extra kv hkv

/-- A number below 10 is given its file. -/
theorem Destined.give {done : List Nat} {v : Vars} {i : Nat} {t : FdTable File} (h : Destined req done v)
    (hi : 3 ≤ i ∧ i < 10) (hfile : t.file i = req.source i)
    (hsame : ∀ m, m ≠ i → t.entry m = v.table.entry m) : Destined req (done ++ [i]) { v with table := t } where
  sources := by
    refine h.sources.frame (fun n hn => FdTable.file_congr (hsame n (by omega))) fun n hn => ?_
    have hge := h.busy_ge n hn
    exact FdTable.file_congr (hsame n (by omega))
  pipe := h.pipe
  program := h.program
  extra := h.extra
  done j hj := by
    by_cases heq : j = i
    · rw [heq]
      exact hfile
    · rw [FdTable.file_congr (hsame j heq)]
      refine h.done j ((List.mem_append.mp hj).resolve_right ?_)
      rw [List.mem_singleton]
      exact heq

theorem inherit_spec (done : List Nat) (i : Nat) (hi : 3 ≤ i ∧ i < 10) :
    Triple (Reported req faults) (On (Destined req done)) (inherit faults i)
      (On (Destined req (done ++ [i]))) := by
  rintro s ⟨hgoing, hs⟩
  unfold inherit
  cases hfind : s.vars.args.extraFds.find? (fun kv => kv.1 == i) with
  | none =>
      have hnone : req.source i = none := by
        refine Request.source_closed hi ?_
        rw [← hs.sources.keys]
        rintro hin
        obtain ⟨kv, hkv, rfl⟩ := List.mem_map.mp hin
        exact List.find?_eq_none.mp hfind kv hkv (beq_self_eq_true _)
      refine @closeFd_spec req faults (Destined req done) _ i (fun v hv => ?_) s ⟨hgoing, hs⟩
      refine hv.give hi ?_ fun m hm => ?_
      · rw [hnone, FdTable.file_eq_none_iff, FdTable.entry_close, if_pos rfl]
      · rw [FdTable.entry_close, if_neg hm]
  | some kv =>
      obtain ⟨dst, src⟩ := kv
      have hin := List.mem_of_find?_eq_some hfind
      have hdst : dst = i := by simpa using List.find?_some hfind
      subst hdst
      refine dup2_spec (P := fun v => Destined req done v ∧ (dst, src) ∈ v.args.extraFds)
        (fun v hv => ?_) s ⟨hgoing, hs, hin⟩
      obtain ⟨f, hf⟩ := hv.1.sources.extra_open hv.2
      refine ⟨hv.1.sources.pipe, f, hf, fun t ht hsame => hv.1.give hi ?_ hsame⟩
      rw [ht, ← hf]
      exact hv.1.sources.extra _ hv.2

/-! The numbers from 10 on. -/

/-- The numbers below 10 are as they shall be. -/
structure Low (req : Request) (v : Vars) : Prop where
  streams : ∀ n < 3, v.table.file n = req.stream n
  extra : ∀ key, 3 ≤ key → key < 10 → v.table.file key = req.source key
  program : v.args.programfd = req.programAt

theorem Low.frame {v : Vars} {t : FdTable File} (h : Low req v)
    (hsame : ∀ n < 10, t.entry n = v.table.entry n) : Low req { v with table := t } where
  streams n hn := (FdTable.file_congr (hsame n (by omega))).trans (h.streams n hn)
  extra key hge hlt := (FdTable.file_congr (hsame key hlt)).trans (h.extra key hge hlt)
  program := h.program

/-- Whoever names the number of the program after the pipe has come to 10. -/
structure PipeAtTen (req : Request) (v : Vars) : Prop where
  low : Low req v
  pipe : v.table.file 10 = req.errorPipe
  program : ∀ p', req.programAt = some p' → p' ≠ 10 → some (v.table.file p') = req.program.map req.table.file

structure PipeMarked (req : Request) (v : Vars) : Prop extends PipeAtTen req v where
  marked : ∃ f, v.table.entry 10 = some ⟨f, true⟩

structure ProgramMarked (req : Request) (v : Vars) : Prop where
  low : Low req v
  pipe : v.table.file 10 = req.errorPipe
  marked : ∃ f, v.table.entry 10 = some ⟨f, true⟩
  program : req.programAt = some 11 → some (v.table.file 11) = req.program.map req.table.file
  markedProgram : ∀ p', req.programAt = some p' → ∃ f, v.table.entry 11 = some ⟨f, true⟩

/-- What `exec` is called with. -/
structure Ready (req : Request) (v : Vars) : Prop where
  low : Low req v
  beyond : ∀ n, 10 ≤ n → v.table.exec.entry n = none
  pipe : v.table.file 10 = req.errorPipe
  program : req.programAt = some 11 → some (v.table.file 11) = req.program.map req.table.file
  closed : ∀ p', req.programAt = some p' → 11 < p' → v.table.file p' = none

theorem Destined.low {v : Vars} (h : Destined req (List.range' 3 7) v) : Low req v where
  streams := h.sources.streams
  extra key hge hlt := h.done key (List.mem_range'_1.mpr ⟨hge, hlt⟩)
  program := h.program

theorem movePipe_spec :
    Triple (Reported req faults) (On (Destined req (List.range' 3 7))) (movePipe faults)
      (On (PipeAtTen req)) := by
  have hprogram : ∀ v, Destined req (List.range' 3 7) v → ∀ p', req.programAt = some p' →
      some (v.table.file p') = req.program.map req.table.file := by
    intro v hv p' hp'
    rw [← hv.sources.program, hv.program, hp']
    rfl
  rintro s ⟨hgoing, hs⟩
  unfold movePipe
  by_cases hten : s.vars.args.closeonexecpipe ≠ 10
  · rw [if_pos hten]
    refine dup2_spec (P := Destined req (List.range' 3 7)) (fun v hv => ?_) s ⟨hgoing, hs⟩
    obtain ⟨f, hf⟩ := hv.sources.pipe_open
    refine ⟨hv.sources.pipe, f, hf, fun t ht hsame => ⟨hv.low.frame fun n hn => hsame n (by omega), ?_, ?_⟩⟩
    · rw [ht, ← hf]
      exact hv.sources.pipe
    · intro p' hp' hne
      rw [FdTable.file_congr (hsame p' hne)]
      exact hprogram v hv p' hp'
  · rw [if_neg hten]
    have hat : s.vars.pipe = 10 := not_not.mp hten
    refine ⟨hgoing, hs.low, ?_, fun p' hp' _ => hprogram s.vars hs p' hp'⟩
    rw [← hat]
    exact hs.sources.pipe

theorem Request.errorPipe_open (req : Request) : ∃ f, req.errorPipe = some f :=
  Request.open_of_given req.pipe_given

theorem markPipe_spec :
    Triple (Reported req faults) (On (PipeAtTen req)) (setCloexec faults 10) (On (PipeMarked req)) := by
  refine setCloexec_spec fun v hv => ?_
  obtain ⟨f, hf⟩ := req.errorPipe_open
  refine ⟨hv.pipe, f, hv.pipe.trans hf, fun t ht hsame => ?_⟩
  refine ⟨⟨hv.low.frame fun n hn => hsame n (by omega), ?_, ?_⟩, f, ht⟩
  · rw [hf]
    unfold FdTable.file
    rw [ht]
    rfl
  · intro p' hp' hne
    rw [FdTable.file_congr (hsame p' hne)]
    exact hv.program p' hp' hne

theorem PipeMarked.program_open {v : Vars} (h : PipeMarked req v) {p' : Nat} (hp' : req.programAt = some p') :
    ∃ f, v.table.file p' = some f := by
  by_cases hten : p' = 10
  · rw [hten, h.pipe]
    exact req.errorPipe_open
  · obtain ⟨p, hp, hfile⟩ := Option.map_eq_some_iff.mp (h.program p' hp' hten).symm
    rw [← hfile]
    exact Request.open_of_given (Request.program_given hp)

theorem moveProgram_spec :
    Triple (Reported req faults) (On (PipeMarked req)) (moveProgram faults) (On (ProgramMarked req)) := by
  rintro s ⟨hgoing, hs⟩
  unfold moveProgram
  rw [hs.low.program]
  cases hp : req.programAt with
  | none =>
      refine ⟨hgoing, hs.low, hs.pipe, hs.marked, ?_, ?_⟩
      · rw [hp]
        exact nofun
      · rw [hp]
        exact nofun
  | some p' =>
      have hge := Request.programAt_ge hp
      refine Triple.seq (P := On (PipeMarked req)) (Q := On fun v => PipeMarked req v ∧ ∃ f, v.table.file 11 = some f)
        ?_ (setCloexec_spec fun v hv => ?_) s ⟨hgoing, hs⟩
      · rintro s ⟨hgoing, hs⟩
        beta_reduce
        by_cases heleven : p' = 11
        · rw [if_neg (not_not.mpr heleven)]
          refine ⟨hgoing, hs, ?_⟩
          rw [← heleven]
          exact hs.program_open hp
        · rw [if_pos heleven]
          refine dup2_spec (P := PipeMarked req) (fun v hv => ?_) s ⟨hgoing, hs⟩
          obtain ⟨f, hf⟩ := hv.program_open hp
          refine ⟨hv.pipe, f, hf, fun t ht hsame => ⟨⟨⟨?_, ?_, ?_⟩, ?_⟩, f, ht⟩⟩
          · exact hv.low.frame fun n hn => hsame n (by omega)
          · rw [FdTable.file_congr (hsame 10 (by omega))]
            exact hv.pipe
          · intro q hq hne
            rw [hp] at hq
            obtain rfl := Option.some.inj hq
            rw [FdTable.file_congr (hsame p' heleven)]
            exact hv.program p' hp hne
          · rw [hsame 10 (by omega)]
            exact hv.marked
      · obtain ⟨hv, f, hf⟩ := hv
        refine ⟨hv.pipe, f, hf, fun t ht hsame => ⟨?_, ?_, ?_, ?_, fun _ _ => ⟨f, ht⟩⟩⟩
        · exact hv.low.frame fun n hn => hsame n (by omega)
        · rw [FdTable.file_congr (hsame 10 (by omega))]
          exact hv.pipe
        · rw [hsame 10 (by omega)]
          exact hv.marked
        · intro heleven
          have hfile := hv.program 11 heleven (by omega)
          rw [← hfile, hf]
          unfold FdTable.file
          rw [ht]
          rfl

theorem closeRange_spec :
    Triple (Reported req faults) (On (ProgramMarked req)) (closeRange faults) (On (Ready req)) := by
  unfold closeRange
  refine call_spec (fun _ => rfl) fun v hv => ⟨hv.pipe, _, rfl, ?_⟩
  have hten : ∀ first, 11 ≤ first → (v.table.closeFrom first).entry 10 = v.table.entry 10 := by
    intro first hfirst
    rw [FdTable.entry_closeFrom, if_neg (by omega)]
  have hlow : ∀ first, 11 ≤ first → Low req { v with table := v.table.closeFrom first } := by
    intro first hfirst
    refine hv.low.frame fun n hn => ?_
    rw [FdTable.entry_closeFrom, if_neg (by omega)]
  obtain ⟨f, hf⟩ := hv.marked
  beta_reduce
  rw [hv.low.program]
  cases hp : req.programAt with
  | none =>
      refine ⟨hlow 11 (by omega), fun n hn => ?_, ?_, by rw [hp]; exact nofun, by rw [hp]; exact nofun⟩
      · by_cases heq : n = 10
        · rw [heq]
          exact FdTable.entry_exec_of_cloexec ((hten 11 (by omega)).trans hf)
        · refine FdTable.entry_exec_of_closed ?_
          simp only [Option.isNone_none, if_true, FdTable.entry_closeFrom]
          rw [if_pos (by omega)]
      · exact (FdTable.file_congr (hten 11 (by omega))).trans hv.pipe
  | some p' =>
      obtain ⟨g, hg⟩ := hv.markedProgram p' hp
      have heleven : (v.table.closeFrom 12).entry 11 = v.table.entry 11 := by
        rw [FdTable.entry_closeFrom, if_neg (by omega)]
      refine ⟨hlow 12 (by omega), fun n hn => ?_, ?_, ?_, ?_⟩
      · by_cases heq : n = 10
        · rw [heq]
          exact FdTable.entry_exec_of_cloexec ((hten 12 (by omega)).trans hf)
        · by_cases heq' : n = 11
          · rw [heq']
            exact FdTable.entry_exec_of_cloexec (heleven.trans hg)
          · refine FdTable.entry_exec_of_closed ?_
            change (v.table.closeFrom 12).entry n = none
            rw [FdTable.entry_closeFrom, if_pos (by omega)]
      · exact (FdTable.file_congr (hten 12 (by omega))).trans hv.pipe
      · intro hat
        rw [← hv.program hat]
        exact congrArg some (FdTable.file_congr heleven)
      · intro q hq hlt
        refine FdTable.file_eq_none_iff.mpr ?_
        change (v.table.closeFrom 12).entry q = none
        rw [FdTable.entry_closeFrom, if_pos (by omega)]

/-! The child as a whole. -/

theorem setAttributes_spec (platform : Platform) {v₀ : Vars} (hpipe : v₀.table.file v₀.pipe = req.errorPipe) :
    Triple (Reported req faults) (On (· = v₀)) (setAttributes faults platform) (On (· = v₀)) := by
  refine Triple.each (I := fun _ => On (· = v₀)) (Attribute.order platform) (fun _ a _ _ => ?_) [] rfl
  refine .ifThen ?_ fun s hs _ => hs
  refine Triple.weaken (P := On (· = v₀)) (call_spec (fun _ => rfl) ?_) (fun s hs => hs.1) fun s hs => hs
  rintro v rfl
  exact ⟨hpipe, v, rfl, rfl⟩

theorem prepare_spec (platform : Platform) :
    Triple (Reported req faults) (On (· = req.child.vars)) (prepare faults platform) (On (Ready req)) := by
  have hstart : Streams req 0 req.child.vars :=
    ⟨rfl, rfl, fun _ _ _ => rfl, nofun, fun _ _ _ => rfl⟩
  refine .seq (setAttributes_spec platform rfl) ?_
  refine .seq (Q := On (Streams req 1)) ?_ (.seq (Q := On (Streams req 2)) ?_ (.seq (Q := On (Streams req 3)) ?_ ?_))
  · refine .weaken (redirect_spec (k := 0) req.stdin (by omega) rfl (fun m hm => ?_) rfl
      fun t => (t.pipe_spec _ _).1) (fun s hs => ⟨hs.1, hs.2 ▸ hstart⟩) fun s hs => hs
    unfold Handles.numbers
    simp [hm]
  · refine redirect_spec req.stdout (by omega) rfl (fun m hm => ?_) rfl fun t => (t.pipe_spec _ _).2.1
    unfold Handles.numbers
    simp [hm]
  · refine redirect_spec req.stderr (by omega) rfl (fun m hm => ?_) rfl fun t => (t.pipe_spec _ _).2.1
    unfold Handles.numbers
    simp [hm]
  refine .seq relocatePipe_spec (.seq relocateProgram_spec (.seq relocateSources_spec ?_))
  refine .seq (Q := On (Destined req (List.range' 3 7))) ?_
    (.seq movePipe_spec (.seq markPipe_spec (.seq moveProgram_spec closeRange_spec)))
  refine Triple.weaken (P := On (Destined req [])) (Triple.each (I := fun done => On (Destined req done)) (List.range' 3 7)
    (fun done i rest hl => ?_) [] rfl) (fun s hs => ⟨hs.1, hs.2.1.destined hs.2.2⟩) fun s hs => hs
  refine inherit_spec done i ?_
  have hin : i ∈ [] ++ List.range' 3 7 := by
    rw [← hl]
    simp
  exact List.mem_range'_1.mp hin

/-- The call of `exec` that the child makes. -/
def execCall (v : Vars) : Call :=
  match v.args.programfd with
  | some p => .fexecve p
  | none => .execve

/-- An `exec` that fails leaves the table and is reported. -/
theorem exec_outcome (faults : Nat → Option Nat) (s : Child) :
    ∃ r, (final (exec faults s)).vars = s.vars ∧
      (final (exec faults s)).calls = (execCall s.vars, r) :: s.calls ∧
      ∀ code, r = some code → exec faults s = .error ⟨final (exec faults s), 10, code⟩ := by
  unfold exec execCall call
  cases s.vars.args.programfd with
  | none =>
      simp only
      cases faults s.calls.length with
      | some code => exact ⟨some code, rfl, rfl, fun c hc => by rw [← Option.some.inj hc]; rfl⟩
      | none => exact ⟨none, rfl, rfl, (by simp)⟩
  | some p =>
      simp only
      cases faults s.calls.length with
      | some code => exact ⟨some code, rfl, rfl, fun c hc => by rw [← Option.some.inj hc]; rfl⟩
      | none =>
          cases s.vars.table.entry p with
          | none => exact ⟨some EBADF, rfl, rfl, fun c hc => by rw [← Option.some.inj hc]; rfl⟩
          | some e => exact ⟨none, rfl, rfl, (by simp)⟩

theorem execCall_isExec (v : Vars) : (execCall v).isExec = true := by
  unfold execCall
  split <;> rfl

/-- The program is at 11 in the end, or at 10 and the same file as the pipe. -/
def Request.Reaches (req : Request) : Prop :=
  ∀ p, req.program = some p → req.programAt = some 11 ∨
    req.programAt = some 10 ∧ req.table.file p = req.errorPipe

theorem Ready.right_iff {v : Vars} (h : Ready req v) : Right req v.table (execCall v) ↔ req.Reaches := by
  have hcall : ∀ p', req.programAt = some p' → execCall v = .fexecve p' := by
    intro p' hp'
    unfold execCall
    rw [h.low.program, hp']
  constructor
  · intro hright p hp
    obtain ⟨fd, hfd, hfile⟩ := hright.program p hp
    obtain ⟨f, hf⟩ := Request.open_of_given (Request.program_given hp)
    obtain ⟨p', hp'⟩ : ∃ p', req.programAt = some p' := by
      unfold Request.programAt
      rw [hp]
      exact ⟨_, rfl⟩
    obtain rfl : p' = fd := Call.fexecve.inj ((hcall p' hp').symm.trans hfd)
    have hge := Request.programAt_ge hp'
    rcases Nat.lt_trichotomy p' 11 with hlt | rfl | hgt
    · obtain rfl : p' = 10 := by omega
      exact .inr ⟨hp', hfile.symm.trans h.pipe⟩
    · exact .inl hp'
    · rw [h.closed p' hp' hgt, hf] at hfile
      cases hfile
  · intro hreaches
    refine ⟨h.low.streams, h.low.extra, h.beyond, fun p hp => ?_⟩
    rcases hreaches p hp with hat | ⟨hat, hsame⟩
    · have hfile := h.program hat
      rw [hp] at hfile
      exact ⟨11, hcall 11 hat, Option.some.inj hfile⟩
    · exact ⟨10, hcall 10 hat, h.pipe.trans hsame.symm⟩

theorem spawned_iff_reaches (platform : Platform) (req : Request) :
    (∀ faults, Spawned req (spawn faults platform req)) ↔ req.Reaches := by
  have hstart : On (· = req.child.vars) req.child := ⟨⟨nofun, nofun⟩, rfl⟩
  constructor
  · intro hall
    have hspawned := hall fun _ => none
    unfold spawn childMain seq at hspawned
    cases hresult : prepare (fun _ => none) platform req.child with
    | error e =>
        obtain ⟨k, hk⟩ := ((prepare_spec platform).error hstart hresult).fault
        exact absurd rfl hk
    | ok s =>
        have hprepared := (prepare_spec platform).ok hstart hresult
        rw [hresult] at hspawned
        obtain ⟨r, hvars, hcalls, -⟩ := exec_outcome (fun _ => none) s
        have hright := hspawned.exec (execCall s.vars) r
          (by rw [hcalls]; exact List.mem_cons_self ..) (execCall_isExec s.vars)
        rw [hvars] at hright
        exact hprepared.2.right_iff.mp hright
  · intro hreaches faults
    unfold spawn childMain seq
    cases hresult : prepare faults platform req.child with
    | error e =>
        have hprepared := (prepare_spec platform).error hstart hresult
        obtain ⟨c, rest, hcalls, hgoing, hexec⟩ := hprepared.latest
        constructor
        · intro c' r hin hc'
          change (c', r) ∈ e.child.calls at hin
          rw [hcalls] at hin
          rcases List.mem_cons.mp hin with heq | hin
          · rw [(Prod.mk.inj heq).1, hexec] at hc'
            cases hc'
          · rw [hgoing.early c' r hin] at hc'
            cases hc'
        · intro c' code hin hclose
          change (c', some code) ∈ e.child.calls at hin
          rw [hcalls] at hin
          rcases List.mem_cons.mp hin with heq | hin
          · refine ⟨e.child, e.fd, ?_, hprepared.pipe⟩
            rw [Option.some.inj (Prod.mk.inj heq).2]
          · obtain ⟨fd, hfd⟩ := hgoing.quiet c' code hin
            exact absurd hfd (hclose fd)
    | ok s =>
        obtain ⟨hgoing, hready⟩ := (prepare_spec platform).ok hstart hresult
        obtain ⟨r, hvars, hcalls, hfailed⟩ := exec_outcome faults s
        simp only
        constructor
        · intro c' r' hin hc'
          rw [hcalls] at hin
          rw [hvars]
          rcases List.mem_cons.mp hin with heq | hin
          · rw [(Prod.mk.inj heq).1]
            exact hready.right_iff.mpr hreaches
          · rw [hgoing.early c' r' hin] at hc'
            cases hc'
        · intro c' code hin hclose
          rw [hcalls] at hin
          rcases List.mem_cons.mp hin with heq | hin
          · refine ⟨_, 10, hfailed code (Prod.mk.inj heq).2.symm, ?_⟩
            rw [hvars]
            exact hready.pipe
          · obtain ⟨fd, hfd⟩ := hgoing.quiet c' code hin
            exact absurd hfd (hclose fd)

/-! Where the program ends up. -/

theorem nextfd_eq_iff (busy : List Nat) (idx n : Nat) :
    nextfd busy idx = n ↔ idx ≤ n ∧ (∀ m, idx ≤ m → m < n → m ∈ busy) ∧ n ∉ busy := by
  obtain ⟨hle, hpassed, hfree⟩ := nextfd_spec busy idx
  constructor
  · rintro rfl
    exact ⟨hle, hpassed, hfree⟩
  · rintro ⟨hle', hpassed', hfree'⟩
    rcases Nat.lt_trichotomy (nextfd busy idx) n with hlt | heq | hgt
    · exact absurd (hpassed' _ hle hlt) hfree
    · exact heq
    · exact absurd (hpassed n hle' hgt) hfree'

/-- The descriptor of the program is 11, or comes to be 11 when it is moved out
of the way of the destinations; or it is at 10, and the error pipe is the same
file. -/
def Request.ProgramKept (req : Request) : Prop :=
  ∀ p, req.program = some p →
    if 10 ≤ p then p = 11 ∨ p = 10 ∧ req.table.file p = req.errorPipe
    else if req.closeonexecpipe < 10 then 10 ∉ req.sources ∧ 11 ∉ req.sources
    else if 10 ∈ req.sources ∨ req.closeonexecpipe = 10 then
      11 ∉ req.sources ∧ req.closeonexecpipe ≠ 11
    else req.table.file p = req.errorPipe

theorem kept_iff_reaches (req : Request) : req.ProgramKept ↔ req.Reaches := by
  unfold Request.ProgramKept Request.Reaches
  refine forall_congr' fun p => imp_congr_right fun hp => ?_
  unfold Request.programAt
  rw [hp, Option.map_some, Option.some.injEq, Option.some.injEq]
  by_cases hten : 10 ≤ p
  · rw [if_pos hten, if_neg (by omega)]
  have hlow : p < 10 := by omega
  rw [if_neg hten, if_pos hlow, nextfd_eq_iff, nextfd_eq_iff]
  have hten' : 10 ≠ p := by omega
  have heleven' : 11 ≠ p := by omega
  by_cases hpipe : req.closeonexecpipe < 10
  · have hbusy : ∀ n, 10 ≤ n → (n ∈ req.arguments.busy ↔ n ∈ req.sources) := by
      intro n hn
      have hne : n ≠ req.closeonexecpipe := by omega
      have hne' : n ≠ p := by omega
      simp [SpawnArguments.busy, Request.arguments, Handles.sources, hp, hne, hne']
    have hat : req.pipeAt = nextfd req.arguments.busy 10 := if_pos hpipe
    have hidx : req.idxAfter = req.pipeAt + 1 := if_pos hpipe
    have hge := req.pipeAt_ge
    have hfree : req.pipeAt ∉ req.sources := by
      rw [← hbusy _ hge, hat]
      exact (nextfd_spec _ _).2.2
    rw [if_pos hpipe, hidx]
    constructor
    · rintro ⟨h10, h11⟩
      have hpipeAt : req.pipeAt = 10 := by
        rw [hat, nextfd_eq_iff, hbusy 10 (Nat.le_refl _)]
        exact ⟨Nat.le_refl _, fun m hle hlt => absurd hlt (by omega), h10⟩
      refine .inl ⟨by omega, fun m hle hlt => absurd hlt (by omega), ?_⟩
      simp [hpipeAt, heleven', h11]
    · rintro (⟨hle, -, hnot⟩ | ⟨⟨hle, -, -⟩, -⟩)
      · have hpipeAt : req.pipeAt = 10 := by omega
        rw [hpipeAt] at hfree
        refine ⟨hfree, fun hin => hnot ?_⟩
        simp [hin]
      · omega
  · have hat : req.pipeAt = req.closeonexecpipe := if_neg hpipe
    have hidx : req.idxAfter = 10 := if_neg hpipe
    rw [if_neg hpipe, hat, hidx]
    by_cases hused : 10 ∈ req.sources ∨ req.closeonexecpipe = 10
    · rw [if_pos hused]
      have hin : 10 ∈ req.closeonexecpipe :: p :: req.sources := by
        rcases hused with hin | heq
        · simp [hin]
        · simp [heq]
      constructor
      · rintro ⟨h11, hne⟩
        refine .inl ⟨by omega, fun m hle hlt => ?_, ?_⟩
        · obtain rfl : m = 10 := by omega
          exact hin
        · simp [heleven', h11, hne.symm]
      · rintro (⟨-, -, hnot⟩ | ⟨⟨-, -, hnot⟩, -⟩)
        · exact ⟨fun h => hnot (by simp [h]), fun h => hnot (by simp [h])⟩
        · exact absurd hin hnot
    · rw [if_neg hused]
      have hnot : 10 ∉ req.closeonexecpipe :: p :: req.sources := by
        rintro hin
        rcases List.mem_cons.mp hin with heq | hin
        · exact hused (.inr heq.symm)
        · rcases List.mem_cons.mp hin with heq | hin
          · exact hten' heq
          · exact hused (.inl hin)
      constructor
      · intro hsame
        exact .inr ⟨⟨Nat.le_refl _, fun m hle hlt => absurd hlt (by omega), hnot⟩, hsame⟩
      · rintro (⟨-, hall, -⟩ | ⟨-, hsame⟩)
        · exact absurd (hall 10 (Nat.le_refl _) (by omega)) hnot
        · exact hsame

/-- The child reaches `exec` with the table that was asked for, and all failures
reach the error pipe, exactly if the descriptor of the program survives. -/
theorem spawned_iff (platform : Platform) (req : Request) :
    (∀ faults, Spawned req (spawn faults platform req)) ↔ req.ProgramKept := by
  rw [kept_iff_reaches]
  exact spawned_iff_reaches platform req

/-- The program is at 12, the error pipe at 4. -/
def programAtTwelve : Request where
  stdin := .share
  stdout := .share
  stderr := .share
  program := some 12
  extraFds _ := none
  closeonexecpipe := 4
  table := [0, 1, 2, 4, 12].foldl (fun t n => t.put n ⟨.opened n, false⟩) ⟨fun _ => none, 0, fun _ _ => rfl⟩
  asked _ := false
  std := by decide
  given := by decide

/-- `fexecve` is called on a number that `close_range` has closed. -/
theorem program_closed_before_exec :
    (final (spawn (fun _ => none) .linux programAtTwelve)).calls.head? = some (.fexecve 12, some EBADF) ∧
      (final (spawn (fun _ => none) .linux programAtTwelve)).vars.table.file 12 = none ∧
      ¬ (∀ faults, Spawned programAtTwelve (spawn faults .linux programAtTwelve)) := by
  refine ⟨by decide +kernel, by decide +kernel, fun hall => ?_⟩
  have hkept := (kept_iff_reaches _).mpr ((spawned_iff_reaches .linux _).mp hall) 12 rfl
  rcases hkept with heq | ⟨heq, -⟩ <;> exact absurd heq (by decide)

end

end Emilua.Unix.Spawn
