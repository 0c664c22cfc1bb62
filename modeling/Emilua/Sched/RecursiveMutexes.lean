import Emilua.Sched.Suspension
import Emilua.Lib.Reentrant

/-!
A recursive mutex is a lock that its owner can take again. What the owner has
done since it has the mutex is written down beside the VM, from what the calls
return.
-/
namespace Emilua.Sched
open Transition Reentrant

namespace Process

def recursiveMutexLockReply (p : Process) (f : FiberId) (m : Nat) : Reply :=
  if p.disallowed f ≠ 0 then .raised .forbidSuspendBlock
  else
    match p.vm.owner m with
    | none => .returned
    | some g =>
        if g = f then if p.vm.nlocked m = 2 ^ 64 - 1 then .raised .valueTooLarge else .returned
        else .suspended

def recursiveMutexTryLockReply (p : Process) (f : FiberId) (m : Nat) : Reply :=
  match p.vm.owner m with
  | none => .locked true
  | some g =>
      if g = f then if p.vm.nlocked m = 2 ^ 64 - 1 then .raised .valueTooLarge else .locked true
      else .locked false

def recursiveMutexUnlockReply (p : Process) (f : FiberId) (m : Nat) : Reply :=
  if p.vm.owner m ≠ some f then .raised .operationNotPermitted else .returned

end Process

/-- `since m` is what the owner of mutex `m` has done since it has it. -/
structure Ledger extends Process where
  since : Nat → List Turn

namespace Ledger

def initial : Ledger := ⟨.initial, fun _ => []⟩

/-- A lock that succeeds: it is the first of a new owner, or one more. -/
def locks (t : Ledger) (m : Nat) : List Turn := if t.vm.owner m = none then [.lock] else t.since m ++ [.lock]

/-- An unlock that succeeds, and leaves the owner as it was, or frees the mutex,
or ends the lock call of a waiter. -/
def unlocks (t : Ledger) (p : Process) (m : Nat) : List Turn :=
  if p.vm.owner m = t.vm.owner m then t.since m ++ [.unlock]
  else if p.vm.owner m = none then []
  else [.lock]

/-- The list of mutex `m` after fiber `f` has done `a`, which leads to `p`. -/
def after (t : Ledger) (f : FiberId) (a : Process.Action) (p : Process) (m : Nat) : List Turn :=
  match a with
  | .call (.recursiveMutexLock m') =>
      if m' = m ∧ t.recursiveMutexLockReply f m = .returned then t.locks m else t.since m
  | .call (.recursiveMutexTryLock m') =>
      if m' = m ∧ t.recursiveMutexTryLockReply f m = .locked true then t.locks m else t.since m
  | .call (.recursiveMutexUnlock m') =>
      if m' = m ∧ t.recursiveMutexUnlockReply f m = .returned then t.unlocks p m else t.since m
  | _ => t.since m

def exec (t : Ledger) (a : Process.Action) : ExecM Ledger := do
  let p ← t.toProcess.exec a
  match t.vm.current with
  | some f => .ok ⟨p, t.after f a p⟩
  | none => .ok ⟨p, t.since⟩

def Step (t : Ledger) (a : Process.Action) (t' : Ledger) : Prop := t.exec a = .ok t'

def Initial (t : Ledger) : Prop := t = initial

theorem initial_self : Initial initial := rfl

def lock (t : Ledger) (m : Nat) : Lock FiberId where
  owner := t.vm.owner m
  count := t.vm.nlocked m
  pending := t.vm.queues (.recursiveMutex m)
  since := t.since m

end Ledger

/-- What a VM keeps for its recursive mutexes. -/
def State.recursive (s : State) : (Nat → Option FiberId) × (Nat → Nat) × (Nat → List FiberId) :=
  (s.owner, s.nlocked, fun m => s.queues (.recursiveMutex m))

def Action.isRecursive : Action → Bool
  | .recursiveMutexLock _ | .recursiveMutexTryLock _ | .recursiveMutexUnlock _ => true
  | _ => false

section
variable {s s' : State} {a : Action} {f g : FiberId} {m : Nat} {w : Wait} {q : Queue}

theorem Action.not_touches (ha : a.isRecursive = false) (m : Nat) : a.touches (.recursiveMutex m) = false := by
  cases a with
  | recursiveMutexLock m | recursiveMutexTryLock m | recursiveMutexUnlock m => cases ha
  | _ => simp [Action.touches, Wait.silent]

theorem owner_condUnlock : (s.condUnlock f m).owner = s.owner ∧ (s.condUnlock f m).nlocked = s.nlocked := by
  unfold State.condUnlock
  split <;> exact ⟨rfl, rfl⟩

theorem owner_exec (ha : a.isRecursive = false) (hs : Sched.exec s a = .ok s') :
    s'.owner = s.owner ∧ s'.nlocked = s.nlocked := by
  cases hl : a.locks with
  | false =>
      have hheld := exec_held hl hs
      simp only [State.held, Prod.mk.injEq] at hheld
      exact hheld.2.2
  | true =>
      obtain ⟨-, ⟨f, -, hcall⟩ | ⟨i, ec, rfl, -⟩ | ⟨i, o, rfl, -⟩ | ⟨p, ps, rfl, -⟩ | ⟨o, rfl, -⟩⟩ := exec_cases hs
      · cases a with
        | recursiveMutexLock m | recursiveMutexTryLock m | recursiveMutexUnlock m => cases ha
        | mutexLock m | mutexTryLock m =>
            cases hcall
            simp only [State.mutexLock, State.mutexTryLock]
            split <;> exact ⟨rfl, rfl⟩
        | mutexUnlock m =>
            cases hcall
            by_cases hlocked : s.locked m = false
            · rw [State.mutexUnlock, if_pos hlocked]
              exact ⟨rfl, rfl⟩
            · rw [State.mutexUnlock, if_neg hlocked]
              exact owner_condUnlock
        | condWait c m =>
            cases hcall
            unfold State.condWait
            repeat' split
            · exact ⟨rfl, rfl⟩
            · exact ⟨rfl, rfl⟩
            · exact owner_condUnlock (s := s.setQueue _ _)
        | _ => cases hl
      all_goals cases hl

theorem recursive_exec (h : Coherent s) (ha : a.isRecursive = false) (hs : Sched.exec s a = .ok s') :
    s'.recursive = s.recursive := by
  obtain ⟨howner, hcount⟩ := owner_exec ha hs
  have hqueues : (fun m => s'.queues (.recursiveMutex m)) = fun m => s.queues (.recursiveMutex m) := by
    funext m
    exact exec_queues h (a.not_touches ha m) hs
  simp only [State.recursive, howner, hcount, hqueues]

/-! What does not. -/

section
variable {t t' : Ledger} {x : Process.Action}

theorem Ledger.lock_eq_update {y : Lock FiberId} (howner : t'.vm.owner = Function.update t.vm.owner m y.owner)
    (hcount : t'.vm.nlocked = Function.update t.vm.nlocked m y.count)
    (hpending : ∀ m', t'.vm.queues (.recursiveMutex m') =
      if m' = m then y.pending else t.vm.queues (.recursiveMutex m'))
    (hsince : t'.since = Function.update t.since m y.since) : t'.lock = Function.update t.lock m y := by
  funext m'
  rw [Ledger.lock, howner, hcount, hpending, hsince]
  by_cases hm : m' = m
  · subst hm
    simp
  · simp [Ledger.lock, hm]

/-- What a step does to a recursive mutex is done by the running fiber. -/
def LedgerChange (t t' : Ledger) : Prop :=
  t'.lock = t.lock ∨
    ∃ f m x, t.vm.current = some f ∧ (t.lock m).Step (2 ^ 64 - 1) f x ∧ t'.lock = Function.update t.lock m x

theorem Ledger.exec_cases (hs : t.exec x = .ok t') :
    t.toProcess.exec x = .ok t'.toProcess ∧
      ((∃ f, t.vm.current = some f ∧ t'.since = t.after f x t'.toProcess) ∨
        t.vm.current = none ∧ t'.since = t.since) := by
  unfold Ledger.exec at hs
  cases hp : t.toProcess.exec x with
  | error e => rw [hp] at hs; cases hs
  | ok p =>
      rw [hp] at hs
      cases hcur : t.vm.current with
      | none =>
          simp only [hcur, bind, Except.bind] at hs
          cases hs
          exact ⟨rfl, .inr ⟨rfl, rfl⟩⟩
      | some f =>
          simp only [hcur, bind, Except.bind] at hs
          cases hs
          exact ⟨rfl, .inl ⟨f, rfl, rfl⟩⟩

theorem Ledger.lock_of_recursive (hvm : t'.vm.recursive = t.vm.recursive) (hsince : t'.since = t.since) :
    t'.lock = t.lock := by
  simp only [State.recursive, Prod.mk.injEq] at hvm
  obtain ⟨howner, hcount, hqueues⟩ := hvm
  funext m
  rw [Ledger.lock, howner, hcount, congrFun hqueues m, hsince]
  rfl

/-- The mutex is taken, for the first time or again. -/
theorem ledgerChange_take (hf : t.vm.current = some f) (howned : (t.lock m).Owned (2 ^ 64 - 1))
    (hfree : t.vm.owner m = none ∨ t.vm.owner m = some f ∧ t.vm.nlocked m ≠ 2 ^ 64 - 1)
    (hvm : t'.vm = t.vm.setOwner m (some f) (t.vm.nlocked m + 1))
    (hsince : t'.since = Function.update t.since m (t.locks m)) : LedgerChange t t' := by
  have hqueues : t'.vm.queues = t.vm.queues := by rw [hvm]; rfl
  have howner : t'.vm.owner = Function.update t.vm.owner m (some f) := by rw [hvm]; rfl
  have hcount : t'.vm.nlocked = Function.update t.vm.nlocked m (t.vm.nlocked m + 1) := by rw [hvm]; rfl
  rcases hfree with hnone | ⟨hown, hmax⟩
  · have hzero : t.vm.nlocked m = 0 := howned.free.mp hnone
    refine .inr ⟨f, m, _, hf, .acquire hnone, ?_⟩
    refine Ledger.lock_eq_update howner (by rw [hcount, hzero]; rfl) (fun m' => ?_) ?_
    · rw [hqueues]
      split
      · rename_i heq
        rw [heq]
        rfl
      · rfl
    · rw [hsince, Ledger.locks, if_pos hnone]
      rfl
  · have hlt : t.vm.nlocked m < 2 ^ 64 - 1 := Nat.lt_of_le_of_ne howned.bound hmax
    refine .inr ⟨f, m, _, hf, .again hown hlt, ?_⟩
    refine Ledger.lock_eq_update (by rw [howner, ← hown]; rfl) hcount (fun m' => ?_) ?_
    · rw [hqueues]
      split
      · rename_i heq
        rw [heq]
        rfl
      · rfl
    · rw [hsince, Ledger.locks, if_neg (by rw [hown]; exact nofun)]
      rfl

theorem ite_eq_update (b : Nat → Prop) [DecidablePred b] (xs ys : Nat → List Turn) (m : Nat) :
    (fun m' => if m = m' ∧ b m' then ys m' else xs m') = if b m then Function.update xs m (ys m) else xs := by
  funext m'
  by_cases hm : m = m'
  · subst hm
    by_cases hb : b m
    · simp [hb]
    · simp [hb]
  · rw [if_neg fun h => hm h.1]
    split
    · rw [Function.update_of_ne (Ne.symm hm)]
    · rfl

theorem call_of_exec (hf : s.current = some f) (ha : a.isRecursive = true) (hs : Sched.exec s a = .ok s') :
    call s f a = .ok s' := by
  obtain ⟨-, ⟨f', hf', hcall⟩ | ⟨i, ec, rfl, -⟩ | ⟨i, o, rfl, -⟩ | ⟨p, ps, rfl, -⟩ | ⟨o, rfl, -⟩⟩ := exec_cases hs
  · obtain rfl : f = f' := Option.some.inj (hf.symm.trans hf')
    exact hcall
  all_goals cases ha

/-- The mutex is taken, or fiber `f` goes to the end of the line. -/
theorem ledgerChange_wait {g : FiberId} (hf : t.vm.current = some f) (ho : t.vm.owner m = some g) (hg : g ≠ f)
    (hvm : t'.vm = t.vm.enqueue f (.recursiveMutex m) .none) (hsince : t'.since = t.since) : LedgerChange t t' := by
  refine .inr ⟨f, m, _, hf, .wait g ho hg, ?_⟩
  refine Ledger.lock_eq_update ?_ ?_ (fun m' => ?_) ?_
  · rw [hvm]
    exact (Function.update_eq_self m t.vm.owner).symm
  · rw [hvm]
    exact (Function.update_eq_self m t.vm.nlocked).symm
  · rw [hvm]
    change Function.update t.vm.queues _ _ _ = _
    by_cases hm : m' = m
    · subst hm
      rw [Function.update_self, if_pos rfl]
      rfl
    · rw [Function.update_of_ne (by simpa using hm), if_neg hm]
  · rw [hsince]
    exact (Function.update_eq_self m t.since).symm

theorem ledgerChange_lock (hf : t.vm.current = some f) (howned : (t.lock m).Owned (2 ^ 64 - 1))
    (hs : t.toProcess.exec (.call (.recursiveMutexLock m)) = .ok t'.toProcess)
    (hsince : t'.since = t.after f (.call (.recursiveMutexLock m)) t'.toProcess) : LedgerChange t t' := by
  have hafter : t'.since =
      if t.recursiveMutexLockReply f m = .returned then Function.update t.since m (t.locks m) else t.since :=
    hsince.trans (ite_eq_update (fun m => t.recursiveMutexLockReply f m = .returned) t.since t.locks m)
  rcases Process.call_cases hs with ⟨-, hno, heq⟩ | ⟨hok, hexec, -⟩
  · refine .inl (Ledger.lock_of_recursive (by rw [heq]) ?_)
    rw [hafter, if_neg]
    rw [Process.recursiveMutexLockReply, if_pos ((Process.forbids_iff hf).mp hno)]
    exact nofun
  · have hmay : ¬ t.disallowed f ≠ 0 := fun hno => by
      rw [(Process.forbids_iff hf).mpr hno] at hok
      exact absurd (hok rfl) nofun
    have hvm : t'.vm = t.vm.recursiveMutexLock f m := (Except.ok.inj (call_of_exec hf rfl hexec)).symm
    rw [Process.recursiveMutexLockReply, if_neg hmay] at hafter
    unfold State.recursiveMutexLock at hvm
    cases ho : t.vm.owner m with
    | none =>
        simp only [ho, if_true] at hvm hafter
        have hzero : t.vm.nlocked m = 0 := howned.free.mp ho
        exact ledgerChange_take hf howned (.inl ho) (by rw [hvm, hzero]) hafter
    | some g =>
        simp only [ho] at hvm hafter
        by_cases hg : g = f
        · subst hg
          rw [if_pos rfl] at hvm hafter
          by_cases hmax : t.vm.nlocked m = 2 ^ 64 - 1
          · rw [if_pos hmax] at hvm hafter
            exact .inl (Ledger.lock_of_recursive (by rw [hvm]) (by rw [hafter, if_neg nofun]))
          · rw [if_neg hmax] at hvm hafter
            exact ledgerChange_take hf howned (.inr ⟨ho, hmax⟩) hvm (by rw [hafter, if_pos rfl])
        · rw [if_neg hg] at hvm hafter
          exact ledgerChange_wait hf ho hg hvm (by rw [hafter, if_neg nofun])

theorem ledgerChange_tryLock (hf : t.vm.current = some f) (howned : (t.lock m).Owned (2 ^ 64 - 1))
    (hs : t.toProcess.exec (.call (.recursiveMutexTryLock m)) = .ok t'.toProcess)
    (hsince : t'.since = t.after f (.call (.recursiveMutexTryLock m)) t'.toProcess) : LedgerChange t t' := by
  have hafter : t'.since =
      if t.recursiveMutexTryLockReply f m = .locked true then Function.update t.since m (t.locks m) else t.since :=
    hsince.trans (ite_eq_update (fun m => t.recursiveMutexTryLockReply f m = .locked true) t.since t.locks m)
  rcases Process.call_cases hs with ⟨hasks, -⟩ | ⟨-, hexec, -⟩
  · cases hasks
  · have hvm : t'.vm = t.vm.recursiveMutexTryLock f m := (Except.ok.inj (call_of_exec hf rfl hexec)).symm
    unfold Process.recursiveMutexTryLockReply at hafter
    unfold State.recursiveMutexTryLock at hvm
    cases ho : t.vm.owner m with
    | none =>
        simp only [ho, if_true] at hvm hafter
        have hzero : t.vm.nlocked m = 0 := howned.free.mp ho
        exact ledgerChange_take hf howned (.inl ho) (by rw [hvm, hzero]) hafter
    | some g =>
        simp only [ho] at hvm hafter
        by_cases hg : g = f
        · subst hg
          rw [if_pos rfl] at hvm hafter
          by_cases hmax : t.vm.nlocked m = 2 ^ 64 - 1
          · rw [if_pos hmax] at hvm hafter
            exact .inl (Ledger.lock_of_recursive (by rw [hvm]) (by rw [hafter, if_neg nofun]))
          · rw [if_neg hmax] at hvm hafter
            exact ledgerChange_take hf howned (.inr ⟨ho, hmax⟩) hvm (by rw [hafter, if_pos rfl])
        · rw [if_neg hg] at hvm hafter
          exact .inl (Ledger.lock_of_recursive (by rw [hvm]) (by rw [hafter, if_neg (by simp)]))

theorem ledgerChange_unlock (hc : Coherent t.vm) (hf : t.vm.current = some f)
    (hs : t.toProcess.exec (.call (.recursiveMutexUnlock m)) = .ok t'.toProcess)
    (hsince : t'.since = t.after f (.call (.recursiveMutexUnlock m)) t'.toProcess) : LedgerChange t t' := by
  have hafter : t'.since = if t.recursiveMutexUnlockReply f m = .returned then
      Function.update t.since m (t.unlocks t'.toProcess m) else t.since :=
    hsince.trans (ite_eq_update (fun m => t.recursiveMutexUnlockReply f m = .returned) t.since (t.unlocks t'.toProcess) m)
  rcases Process.call_cases hs with ⟨hasks, -⟩ | ⟨-, hexec, -⟩
  · cases hasks
  · have hvm : t'.vm = t.vm.recursiveMutexUnlock f m := (Except.ok.inj (call_of_exec hf rfl hexec)).symm
    unfold Process.recursiveMutexUnlockReply at hafter
    unfold State.recursiveMutexUnlock at hvm
    by_cases ho : t.vm.owner m ≠ some f
    · rw [if_pos ho] at hvm hafter
      exact .inl (Ledger.lock_of_recursive (by rw [hvm]) (by rw [hafter, if_neg nofun]))
    · rw [if_neg ho] at hvm hafter
      rw [if_pos rfl] at hafter
      rw [not_not] at ho
      refine .inr ⟨f, m, _, hf, .release ho, ?_⟩
      by_cases hmore : t.vm.nlocked m - 1 ≠ 0
      · rw [if_pos hmore] at hvm
        rw [(t.lock m).release_more hmore]
        refine Ledger.lock_eq_update (by rw [hvm, ← ho]; rfl) (by rw [hvm]; rfl) (fun m' => ?_) ?_
        · rw [hvm]
          split
          · rename_i heq
            rw [heq]
            rfl
          · rfl
        · have hown : t'.vm.owner m = t.vm.owner m := by
            rw [hvm, ho]
            exact Function.update_self ..
          rw [hafter, Ledger.unlocks, if_pos hown]
          rfl
      · rw [if_neg hmore] at hvm
        cases hq : t.vm.queues (.recursiveMutex m) with
        | nil =>
            simp only [hq] at hvm
            rw [(t.lock m).release_last hmore hq]
            refine Ledger.lock_eq_update (by rw [hvm]; rfl) (by rw [hvm]; rfl) (fun m' => ?_) ?_
            · rw [hvm]
              split
              · rename_i heq
                rw [heq]
                rfl
              · rfl
            · have hown : t'.vm.owner m = none := by
                rw [hvm]
                exact Function.update_self ..
              rw [hafter, Ledger.unlocks, hown, ho, if_neg nofun, if_pos rfl]
        | cons next rest =>
            simp only [hq] at hvm
            have hne : next ≠ f := by
              rintro rfl
              refine hc.not_queued (f := next) (fun w hw => ?_) (.recursiveMutex m) (hq ▸ List.mem_cons_self ..)
              rw [((hc next).running.mpr hf)] at hw
              cases hw
            rw [(t.lock m).release_next hmore hq]
            refine Ledger.lock_eq_update (by rw [hvm]; rfl) (by rw [hvm]; rfl) (fun m' => ?_) ?_
            · rw [hvm]
              change Function.update t.vm.queues _ _ _ = _
              by_cases hm : m' = m
              · subst hm
                rw [Function.update_self, if_pos rfl]
              · rw [Function.update_of_ne (by simpa using hm), if_neg hm]
            · have hown : t'.vm.owner m = some next := by
                rw [hvm]
                exact Function.update_self ..
              rw [hafter, Ledger.unlocks, hown, ho, if_neg (by simpa using hne), if_neg nofun]

theorem ledgerChange (hc : Coherent t.vm) (howned : ∀ m, (t.lock m).Owned (2 ^ 64 - 1)) (hs : t.exec x = .ok t') :
    LedgerChange t t' := by
  obtain ⟨hp, hsince⟩ := Ledger.exec_cases hs
  rcases hsince with ⟨f, hf, hsince⟩ | ⟨hcur, hsince⟩
  · cases x with
    | call a =>
        cases ha : a.isRecursive with
        | true =>
            cases a with
            | recursiveMutexLock m => exact ledgerChange_lock hf (howned m) hp hsince
            | recursiveMutexTryLock m => exact ledgerChange_tryLock hf (howned m) hp hsince
            | recursiveMutexUnlock m => exact ledgerChange_unlock hc hf hp hsince
            | _ => cases ha
        | false =>
            have hsame : t'.since = t.since := by
              rw [hsince]
              funext m
              unfold Ledger.after
              split <;> first | rfl | (rename_i heq; cases heq; cases ha)
            refine .inl (Ledger.lock_of_recursive ?_ hsame)
            rcases Process.call_cases hp with ⟨-, -, heq⟩ | ⟨-, hexec, -⟩
            · rw [heq]
            · exact recursive_exec hc ha hexec
    | forbidSuspend | allowSuspend =>
        rcases Process.exec_vm hp with hvm | ⟨a, ha, -⟩
        · exact .inl (Ledger.lock_of_recursive (by rw [hvm]) hsince)
        · cases ha
  · refine .inl (Ledger.lock_of_recursive ?_ hsince)
    rcases Process.exec_vm hp with hvm | ⟨a, -, hexec⟩
    · rw [hvm]
    · refine recursive_exec hc ?_ hexec
      obtain ⟨-, ⟨f', hf', -⟩ | ⟨i, ec, rfl, -⟩ | ⟨i, o, rfl, -⟩ | ⟨p, ps, rfl, -⟩ | ⟨o, rfl, -⟩⟩ := exec_cases hexec
      · rw [hcur] at hf'
        cases hf'
      all_goals rfl

theorem LedgerChange.owned (h : LedgerChange t t') (howned : ∀ m, (t.lock m).Owned (2 ^ 64 - 1)) (m : Nat) :
    (t'.lock m).Owned (2 ^ 64 - 1) := by
  rcases h with heq | ⟨f, m', x, -, hstep, heq⟩
  · rw [heq]
    exact howned m
  · rw [heq]
    by_cases hm : m = m'
    · subst hm
      rw [Function.update_self]
      exact hstep.owned (by norm_num) (howned m)
    · rw [Function.update_of_ne hm]
      exact howned m

theorem reachable_owned (hs : Reachable Ledger.Initial Ledger.Step t) :
    (Sound t.vm ∧ Queued t.vm) ∧ ∀ m, (t.lock m).Owned (2 ^ 64 - 1) := by
  refine hs.invariant (I := fun t => (Sound t.vm ∧ Queued t.vm) ∧ ∀ m, (t.lock m).Owned (2 ^ 64 - 1)) ?_ ?_
  · intro t ht
    rw [ht]
    exact ⟨⟨sound_initial, queued_initial⟩, fun _ => Lock.owned_free⟩
  · rintro t x t' ⟨hvm, howned⟩ hstep
    exact ⟨Process.exec_sound hvm (Ledger.exec_cases hstep).1, (ledgerChange hvm.1.coherent howned hstep).owned howned⟩

/-- The last unlock of mutex `m`, which leads to `t'`. -/
def HandsOver (t t' : Ledger) (m : Nat) : Prop :=
  match t.vm.line (.recursiveMutex m) with
  | [] => t'.vm.owner m = none ∧ t'.vm.nlocked m = 0
  | next :: rest =>
      t'.vm.owner m = some next ∧ t'.vm.nlocked m = 1 ∧ t'.vm.line (.recursiveMutex m) = rest ∧
        t'.vm.strand = t.vm.strand ++ [⟨next, .outcome .done, true⟩]

theorem exec_unlock (hvalid : t.vm.valid = true) (hf : t.vm.current = some f) :
    t.exec (.call (.recursiveMutexUnlock m)) =
      .ok ⟨⟨t.vm.recursiveMutexUnlock f m, t.disallowed⟩, t.after f (.call (.recursiveMutexUnlock m))
        ⟨t.vm.recursiveMutexUnlock f m, t.disallowed⟩⟩ := by
  have hexec : Sched.exec t.vm (.recursiveMutexUnlock m) = .ok (t.vm.recursiveMutexUnlock f m) := by
    unfold Sched.exec
    rw [if_neg (by simp [hvalid])]
    simp only [hf]
    rfl
  have hproc : t.toProcess.exec (.call (.recursiveMutexUnlock m)) =
      .ok ⟨t.vm.recursiveMutexUnlock f m, t.disallowed⟩ := by
    simp only [Process.exec, Action.asks, hexec, Bool.false_eq_true, false_and, if_false]
    rfl
  unfold Ledger.exec
  rw [hproc]
  simp only [hf, bind, Except.bind]

/-- The main fiber has locked the mutex twice and unlocked it once, and fiber 2
waits for it. -/
def lockedAgain : List Process.Action :=
  [.call .runHandler, .call .spawn, .call (.recursiveMutexLock 0), .call (.recursiveMutexTryLock 0),
    .call .thisFiberYield, .call .runHandler, .call (.recursiveMutexLock 0), .call .runHandler,
    .call (.recursiveMutexUnlock 0)]

end

end

end Emilua.Sched
