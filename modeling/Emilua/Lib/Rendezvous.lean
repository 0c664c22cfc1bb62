import Mathlib.Tactic
import Mathlib.Logic.Relation

/-!
Synchronous sends between parties through inboxes, as a protocol: a send is
posted, then queued or handed over, then answered, and only then does its party
go on. A party can instead wait to receive. Whoever answers a send or claims a
waiting party leaves the answer behind, and it reaches the party later; a party
that is gone loses it.

The history keeps what was sent and handed over, and the answers that arrived.
-/
namespace Rendezvous
open Relation

structure Send (P D : Type) where
  id : Nat
  party : P
  inbox : D
deriving DecidableEq, Repr

structure History (P D E : Type) where
  sent : List (Send P D)
  delivered : List (Send P D)
  completed : List (Nat × Option E)
  woken : List (Nat × Option E)

namespace History
variable {P D E : Type} (h : History P D E)

def send (x : Send P D) : History P D E := { h with sent := h.sent ++ [x] }

def deliver (x : Send P D) : History P D E := { h with delivered := h.delivered ++ [x] }

def complete (n : Nat) (o : Option E) : History P D E :=
  { h with completed := h.completed ++ [(n, o)] }

def wake (k : Nat) (o : Option E) : History P D E := { h with woken := h.woken ++ [(k, o)] }

end History

/-- What a party is in the middle of. An outcome of `none` is success. -/
inductive Phase (D E : Type) where
  | idle
  | posted (n : Nat) (d : D)
  | queued (n : Nat) (d : D)
  | handed (n : Nat) (d : D)
  | answered (n : Nat) (d : D) (o : Option E)
  | waiting (k : Nat)
  | claimed (k : Nat) (o : Option E)
  | lost

namespace Phase
variable {D E : Type}

def send? : Phase D E → Option (Nat × D)
  | .posted n d | .queued n d | .handed n d | .answered n d _ => some (n, d)
  | _ => none

/-- The message of the send has reached a receive. -/
def given : Phase D E → Bool
  | .handed _ _ | .answered _ _ none => true
  | _ => false

def receive? : Phase D E → Option Nat
  | .waiting k | .claimed k _ => some k
  | _ => none

end Phase

structure State (P D E : Type) where
  phase : P → Phase D E
  next : Nat
  hist : History P D E

section Protocol
variable {P D E : Type} [DecidableEq P]

def State.set (s : State P D E) (p : P) (φ : Phase D E) : State P D E :=
  { s with phase := Function.update s.phase p φ }

@[simp] theorem State.set_phase_self (s : State P D E) (p : P) (φ : Phase D E) :
    (s.set p φ).phase p = φ := Function.update_self ..

theorem State.set_phase_ne (s : State P D E) {p q : P} (h : q ≠ p) (φ : Phase D E) :
    (s.set p φ).phase q = s.phase q := Function.update_of_ne h ..

inductive Step : State P D E → State P D E → Prop where
  | tick {s} (k : Nat) : Step s { s with next := s.next + k }
  | send {s p} (d : D) (h : s.phase p = .idle) :
      Step s { s.set p (.posted s.next d) with
        next := s.next + 1, hist := s.hist.send ⟨s.next, p, d⟩ }
  | enqueue {s p n d} (h : s.phase p = .posted n d) : Step s (s.set p (.queued n d))
  | hand {s p n d} (h : s.phase p = .posted n d) :
      Step s { s.set p (.handed n d) with hist := s.hist.deliver ⟨n, p, d⟩ }
  | take {s p n d} (h : s.phase p = .queued n d) :
      Step s { s.set p (.answered n d none) with hist := s.hist.deliver ⟨n, p, d⟩ }
  | announce {s p n d} (h : s.phase p = .handed n d) : Step s (s.set p (.answered n d none))
  | refuse {s p n d} (e : E) (h : s.phase p = .posted n d ∨ s.phase p = .queued n d) :
      Step s (s.set p (.answered n d (some e)))
  | complete {s p n d o} (h : s.phase p = .answered n d o) :
      Step s { s.set p .idle with hist := s.hist.complete n o }
  | receive {s p} (h : s.phase p = .idle) :
      Step s { s.set p (.waiting s.next) with next := s.next + 1 }
  | claim {s p k} (o : Option E) (h : s.phase p = .waiting k) : Step s (s.set p (.claimed k o))
  | wake {s p k} (o : Option E) (h : s.phase p = .waiting k ∨ s.phase p = .claimed k o) :
      Step s { s.set p .idle with hist := s.hist.wake k o }
  | lose {s p} (h : (s.phase p).receive?.isSome ∨ ∃ n d o, s.phase p = .answered n d o) :
      Step s (s.set p .lost)

/-- What holds of a send at all times, by the phase of its party. -/
structure Sends (s : State P D E) : Prop where
  sent_lt : ∀ x ∈ s.hist.sent, x.id < s.next
  sorted : s.hist.sent.Pairwise fun x y => x.id < y.id
  active : ∀ p n d, (s.phase p).send? = some (n, d) →
    ⟨n, p, d⟩ ∈ s.hist.sent ∧ n ∉ s.hist.completed.map Prod.fst ∧
      ∀ x ∈ s.hist.sent, x.party = p → x.id ≤ n
  ungiven : ∀ p n d, (s.phase p).send? = some (n, d) → (s.phase p).given = false →
    n ∉ s.hist.delivered.map Send.id
  given : ∀ p n d, (s.phase p).send? = some (n, d) → (s.phase p).given = true →
    n ∈ s.hist.delivered.map Send.id
  delivered_sent : s.hist.delivered ⊆ s.hist.sent
  delivered_nodup : (s.hist.delivered.map Send.id).Nodup
  ordered : s.hist.delivered.Pairwise fun x y => x.party = y.party → x.id < y.id
  completed_sent : ∀ n ∈ s.hist.completed.map Prod.fst, n ∈ s.hist.sent.map Send.id
  completed_nodup : (s.hist.completed.map Prod.fst).Nodup
  succeeded : ∀ n, (n, none) ∈ s.hist.completed → n ∈ s.hist.delivered.map Send.id
  failed : ∀ n e, (n, some e) ∈ s.hist.completed → n ∉ s.hist.delivered.map Send.id
  settled : ∀ x ∈ s.hist.delivered, (x.id, none) ∈ s.hist.completed ∨
    ((s.phase x.party).send? = some (x.id, x.inbox) ∧ (s.phase x.party).given = true) ∨
      s.phase x.party = .lost

/-- A waiting party is woken once. -/
structure Waits (s : State P D E) : Prop where
  fresh : ∀ p k, (s.phase p).receive? = some k → k < s.next ∧ k ∉ s.hist.woken.map Prod.fst
  unique : ∀ p q k, (s.phase p).receive? = some k → (s.phase q).receive? = some k → p = q
  woken_lt : ∀ k ∈ s.hist.woken.map Prod.fst, k < s.next
  woken_nodup : (s.hist.woken.map Prod.fst).Nodup

namespace Sends
variable {s s' : State P D E}

omit [DecidableEq P] in
/-- Nothing about sends changes, but a party may be lost. -/
theorem quiet (h : Sends s) (hsent : s'.hist.sent = s.hist.sent)
    (hdelivered : s'.hist.delivered = s.hist.delivered)
    (hcompleted : s'.hist.completed = s.hist.completed) (hnext : s.next ≤ s'.next)
    (hphase : ∀ q, s'.phase q = .lost ∨ (s'.phase q).send? = (s.phase q).send? ∧
      (s'.phase q).given = (s.phase q).given ∧ s.phase q ≠ .lost ∨ s'.phase q = s.phase q) :
    Sends s' := by
  have hkept : ∀ q n d, (s'.phase q).send? = some (n, d) →
      (s.phase q).send? = some (n, d) ∧ (s'.phase q).given = (s.phase q).given := by
    intro q n d hq
    rcases hphase q with hlost | ⟨hsend, hgiven, -⟩ | heq
    · rw [hlost] at hq
      cases hq
    · exact ⟨hsend ▸ hq, hgiven⟩
    · rw [heq] at hq ⊢
      exact ⟨hq, rfl⟩
  constructor
  · intro x hx
    rw [hsent] at hx
    exact (h.sent_lt x hx).trans_le hnext
  · rw [hsent]
    exact h.sorted
  · intro q n d hq
    rw [hsent, hcompleted]
    exact h.active q n d (hkept q n d hq).1
  · intro q n d hq hgiven
    rw [hdelivered]
    exact h.ungiven q n d (hkept q n d hq).1 ((hkept q n d hq).2 ▸ hgiven)
  · intro q n d hq hgiven
    rw [hdelivered]
    exact h.given q n d (hkept q n d hq).1 ((hkept q n d hq).2 ▸ hgiven)
  · rw [hsent, hdelivered]
    exact h.delivered_sent
  · rw [hdelivered]
    exact h.delivered_nodup
  · rw [hdelivered]
    exact h.ordered
  · rw [hsent, hcompleted]
    exact h.completed_sent
  · rw [hcompleted]
    exact h.completed_nodup
  · rw [hdelivered, hcompleted]
    exact h.succeeded
  · rw [hdelivered, hcompleted]
    exact h.failed
  · intro x hx
    rw [hdelivered] at hx
    rw [hcompleted]
    rcases h.settled x hx with hdone | ⟨hsend, hgiven⟩ | hlost
    · exact .inl hdone
    · rcases hphase x.party with hlost | ⟨hs, hg, -⟩ | heq
      · exact .inr (.inr hlost)
      · exact .inr (.inl ⟨hs.trans hsend, hg.trans hgiven⟩)
      · exact .inr (.inl (heq ▸ ⟨hsend, hgiven⟩))
    · rcases hphase x.party with hlost' | ⟨-, -, hne⟩ | heq
      · exact .inr (.inr hlost')
      · exact absurd hlost hne
      · exact .inr (.inr (heq.trans hlost))

/-- One party changes its phase and the history stays. -/
theorem quiet_set (h : Sends s) {p : P} {φ : Phase D E} (hlost : s.phase p ≠ .lost)
    (hsend : φ.send? = (s.phase p).send?) (hgiven : φ.given = (s.phase p).given) :
    Sends (s.set p φ) := by
  refine h.quiet rfl rfl rfl le_rfl fun q => ?_
  by_cases hq : q = p
  · subst hq
    rw [State.set_phase_self]
    exact .inr (.inl ⟨hsend, hgiven, hlost⟩)
  · exact .inr (.inr (s.set_phase_ne hq φ))

omit [DecidableEq P] in
theorem sent_inj (h : Sends s) {x y : Send P D} (hx : x ∈ s.hist.sent) (hy : y ∈ s.hist.sent)
    (hid : x.id = y.id) : x = y := by
  have hnodup : (s.hist.sent.map Send.id).Nodup :=
    List.pairwise_map.mpr (h.sorted.imp fun hlt => Nat.ne_of_lt hlt)
  exact List.inj_on_of_nodup_map hnodup hx hy hid

theorem send (h : Sends s) {p : P} (d : D) (hidle : s.phase p = .idle) :
    Sends { s.set p (.posted s.next d) with
      next := s.next + 1, hist := s.hist.send ⟨s.next, p, d⟩ } := by
  have hnew : s.next ∉ s.hist.sent.map Send.id := by
    intro hmem
    obtain ⟨x, hx, hid⟩ := List.mem_map.mp hmem
    exact absurd (h.sent_lt x hx) (by omega)
  have hphase : ∀ q n e, ((s.set p (.posted s.next d)).phase q).send? = some (n, e) →
      q = p ∧ n = s.next ∧ e = d ∨ q ≠ p ∧ (s.phase q).send? = some (n, e) := by
    intro q n e hq
    by_cases hqp : q = p
    · subst hqp
      rw [State.set_phase_self] at hq
      cases hq
      exact .inl ⟨rfl, rfl, rfl⟩
    · rw [s.set_phase_ne hqp] at hq
      exact .inr ⟨hqp, hq⟩
  have hdelivered : s.next ∉ s.hist.delivered.map Send.id :=
    fun hmem => hnew (List.map_subset _ h.delivered_sent hmem)
  constructor
  · intro x hx
    rcases List.mem_append.mp hx with hx | hx
    · exact (h.sent_lt x hx).trans (Nat.lt_succ_self _)
    · rw [List.mem_singleton.mp hx]
      exact Nat.lt_succ_self _
  · refine List.pairwise_append.mpr ⟨h.sorted, List.pairwise_singleton _ _, fun x hx y hy => ?_⟩
    rw [List.mem_singleton.mp hy]
    exact h.sent_lt x hx
  · intro q n e hq
    rcases hphase q n e hq with ⟨rfl, rfl, rfl⟩ | ⟨hqp, hq⟩
    · refine ⟨List.mem_append_right _ (List.mem_singleton_self _),
        fun hmem => hnew (h.completed_sent _ hmem), fun x hx _ => ?_⟩
      rcases List.mem_append.mp hx with hx | hx
      · exact (h.sent_lt x hx).le
      · rw [List.mem_singleton.mp hx]
    · obtain ⟨hsent, hcompleted, hlast⟩ := h.active q n e hq
      refine ⟨List.mem_append_left _ hsent, hcompleted, fun x hx hparty => ?_⟩
      rcases List.mem_append.mp hx with hx | hx
      · exact hlast x hx hparty
      · rw [List.mem_singleton.mp hx] at hparty
        exact absurd hparty.symm hqp
  · intro q n e hq hgiven
    rcases hphase q n e hq with ⟨rfl, rfl, rfl⟩ | ⟨hqp, hq⟩
    · exact hdelivered
    · exact h.ungiven q n e hq (s.set_phase_ne hqp _ ▸ hgiven)
  · intro q n e hq hgiven
    rcases hphase q n e hq with ⟨rfl, rfl, rfl⟩ | ⟨hqp, hq⟩
    · rw [State.set_phase_self] at hgiven
      cases hgiven
    · exact h.given q n e hq (s.set_phase_ne hqp _ ▸ hgiven)
  · exact fun x hx => List.mem_append_left _ (h.delivered_sent hx)
  · exact h.delivered_nodup
  · exact h.ordered
  · intro n hn
    exact List.map_subset _ (List.subset_append_left _ _) (h.completed_sent n hn)
  · exact h.completed_nodup
  · exact h.succeeded
  · exact h.failed
  · intro x hx
    by_cases hqp : x.party = p
    · rcases h.settled x hx with hdone | hrest
      · exact .inl hdone
      · rw [hqp, hidle] at hrest
        rcases hrest with ⟨hsend, -⟩ | hlost
        · cases hsend
        · cases hlost
    · rw [s.set_phase_ne hqp]
      exact h.settled x hx

theorem deliver (h : Sends s) {p : P} {n : Nat} {d : D} {φ : Phase D E}
    (hsend : (s.phase p).send? = some (n, d)) (hgiven : (s.phase p).given = false)
    (hsend' : φ.send? = some (n, d)) (hgiven' : φ.given = true) :
    Sends { s.set p φ with hist := s.hist.deliver ⟨n, p, d⟩ } := by
  obtain ⟨hsent, hcompleted, hlast⟩ := h.active p n d hsend
  have hnew := h.ungiven p n d hsend hgiven
  have hmem : ∀ k, k ∈ (s.hist.deliver ⟨n, p, d⟩).delivered.map Send.id ↔
      k ∈ s.hist.delivered.map Send.id ∨ k = n := by simp [History.deliver]
  have hother : ∀ q k e, q ≠ p → (s.phase q).send? = some (k, e) → k ≠ n := by
    rintro q k e hqp hq rfl
    have heq := h.sent_inj (h.active q k e hq).1 hsent rfl
    exact hqp (congrArg Send.party heq)
  have hset : ∀ q, (({ s.set p φ with hist := s.hist.deliver ⟨n, p, d⟩ } : State P D E).phase q) =
      if q = p then φ else s.phase q := by
    intro q
    by_cases hqp : q = p
    · subst hqp; simp
    · simp [hqp, s.set_phase_ne hqp]
  constructor
  · exact h.sent_lt
  · exact h.sorted
  · intro q k e hq
    rw [hset] at hq
    split at hq
    · next hqp =>
        rw [hsend'] at hq
        cases hq
        exact hqp ▸ h.active p n d hsend
    · exact h.active q k e hq
  · intro q k e hq hg
    rw [hset] at hq hg
    split at hq
    · next hqp =>
        rw [if_pos hqp, hgiven'] at hg
        cases hg
    · next hqp =>
        rw [if_neg hqp] at hg
        intro hk
        rcases (hmem k).mp hk with hk | hk
        · exact h.ungiven q k e hq hg hk
        · exact hother q k e hqp hq hk
  · intro q k e hq hg
    rw [hset] at hq hg
    split at hq
    · rw [hsend'] at hq
      cases hq
      exact (hmem n).mpr (.inr rfl)
    · next hqp =>
        rw [if_neg hqp] at hg
        exact (hmem k).mpr (.inl (h.given q k e hq hg))
  · intro x hx
    rcases List.mem_append.mp hx with hx | hx
    · exact h.delivered_sent hx
    · rw [List.mem_singleton.mp hx]
      exact hsent
  · simpa [History.deliver, List.nodup_append, h.delivered_nodup] using
      fun x hx heq => hnew (List.mem_map.mpr ⟨x, hx, heq⟩)
  · refine List.pairwise_append.mpr ⟨h.ordered, List.pairwise_singleton _ _, fun x hx y hy hparty => ?_⟩
    rw [List.mem_singleton.mp hy] at hparty ⊢
    refine lt_of_le_of_ne (hlast x (h.delivered_sent hx) hparty) fun heq => ?_
    exact hnew (List.mem_map.mpr ⟨x, hx, heq⟩)
  · exact h.completed_sent
  · exact h.completed_nodup
  · intro k hk
    exact (hmem k).mpr (.inl (h.succeeded k hk))
  · intro k e hk hdel
    rcases (hmem k).mp hdel with hdel | rfl
    · exact h.failed k e hk hdel
    · exact hcompleted (List.mem_map.mpr ⟨_, hk, rfl⟩)
  · intro x hx
    rw [hset]
    rcases List.mem_append.mp hx with hx | hx
    · rcases h.settled x hx with hdone | hrest
      · exact .inl hdone
      · split
        · next hqp =>
            rw [hqp] at hrest
            rcases hrest with ⟨-, hg⟩ | hlost
            · rw [hgiven] at hg
              cases hg
            · rw [hlost] at hsend
              cases hsend
        · exact .inr hrest
    · rw [List.mem_singleton.mp hx, if_pos rfl]
      exact .inr (.inl ⟨hsend', hgiven'⟩)

theorem complete (h : Sends s) {p : P} {n : Nat} {d : D} {o : Option E}
    (hphase : s.phase p = .answered n d o) :
    Sends { s.set p .idle with hist := s.hist.complete n o } := by
  have hsend : (s.phase p).send? = some (n, d) := by rw [hphase]; rfl
  have hgiven : (s.phase p).given = o.isNone := by rw [hphase]; cases o <;> rfl
  obtain ⟨hsent, hcompleted, -⟩ := h.active p n d hsend
  have hother : ∀ q k e, ((s.set p .idle).phase q).send? = some (k, e) →
      q ≠ p ∧ (s.phase q).send? = some (k, e) ∧ k ≠ n := by
    intro q k e hq
    by_cases hqp : q = p
    · subst hqp
      rw [State.set_phase_self] at hq
      cases hq
    · rw [s.set_phase_ne hqp] at hq
      refine ⟨hqp, hq, ?_⟩
      rintro rfl
      exact hqp (congrArg Send.party (h.sent_inj (h.active q k e hq).1 hsent rfl))
  have hmem : ∀ k, k ∈ (s.hist.completed ++ [(n, o)]).map Prod.fst ↔
      k ∈ s.hist.completed.map Prod.fst ∨ k = n := by simp
  constructor
  · exact h.sent_lt
  · exact h.sorted
  · intro q k e hq
    obtain ⟨-, hq, hne⟩ := hother q k e hq
    obtain ⟨hsent', hcompleted', hlast⟩ := h.active q k e hq
    exact ⟨hsent', fun hk => ((hmem k).mp hk).elim hcompleted' hne, hlast⟩
  · intro q k e hq hg
    obtain ⟨hqp, hq, -⟩ := hother q k e hq
    exact h.ungiven q k e hq (s.set_phase_ne hqp _ ▸ hg)
  · intro q k e hq hg
    obtain ⟨hqp, hq, -⟩ := hother q k e hq
    exact h.given q k e hq (s.set_phase_ne hqp _ ▸ hg)
  · exact h.delivered_sent
  · exact h.delivered_nodup
  · exact h.ordered
  · intro k hk
    rcases (hmem k).mp hk with hk | rfl
    · exact h.completed_sent k hk
    · exact List.mem_map.mpr ⟨_, hsent, rfl⟩
  · simpa [History.complete, List.nodup_append, h.completed_nodup] using
      fun k e hk heq => hcompleted (List.mem_map.mpr ⟨_, hk, heq⟩)
  · intro k hk
    rcases List.mem_append.mp hk with hk | hk
    · exact h.succeeded k hk
    · cases List.mem_singleton.mp hk
      exact h.given p n d hsend hgiven
  · intro k e hk
    rcases List.mem_append.mp hk with hk | hk
    · exact h.failed k e hk
    · cases List.mem_singleton.mp hk
      exact h.ungiven p n d hsend hgiven
  · intro x hx
    rcases h.settled x hx with hdone | hrest
    · exact .inl (List.mem_append_left _ hdone)
    · by_cases hqp : x.party = p
      · rw [hqp] at hrest
        rcases hrest with ⟨hx, hg⟩ | hlost
        · rw [hsend] at hx
          cases hx
          rw [hgiven, Option.isNone_iff_eq_none] at hg
          exact .inl (List.mem_append_right _ (by rw [hg]; exact List.mem_singleton_self _))
        · rw [hlost] at hphase
          cases hphase
      · rw [s.set_phase_ne hqp]
        exact .inr hrest

theorem step (h : Sends s) (hstep : Step s s') : Sends s' := by
  cases hstep with
  | tick k => exact h.quiet rfl rfl rfl (Nat.le_add_right _ _) fun q => .inr (.inr rfl)
  | send d hidle => exact h.send d hidle
  | enqueue hp => exact h.quiet_set (by simp [hp]) (by rw [hp]; rfl) (by rw [hp]; rfl)
  | hand hp => exact h.deliver (by rw [hp]; rfl) (by rw [hp]; rfl) rfl rfl
  | take hp => exact h.deliver (by rw [hp]; rfl) (by rw [hp]; rfl) rfl rfl
  | announce hp => exact h.quiet_set (by simp [hp]) (by rw [hp]; rfl) (by rw [hp]; rfl)
  | refuse e hp =>
      rcases hp with hp | hp
      · exact h.quiet_set (by simp [hp]) (by rw [hp]; rfl) (by rw [hp]; rfl)
      · exact h.quiet_set (by simp [hp]) (by rw [hp]; rfl) (by rw [hp]; rfl)
  | complete hp => exact h.complete hp
  | @receive p hp =>
      have hset := h.quiet_set (p := p) (φ := .waiting s.next) (by simp [hp])
        (by rw [hp]; rfl) (by rw [hp]; rfl)
      exact hset.quiet rfl rfl rfl (Nat.le_succ _) fun q => .inr (.inr rfl)
  | claim o hp => exact h.quiet_set (by simp [hp]) (by rw [hp]; rfl) (by rw [hp]; rfl)
  | @wake p k o hp =>
      have hset : Sends (s.set p .idle) := by
        rcases hp with hp | hp
        · exact h.quiet_set (by simp [hp]) (by rw [hp]; rfl) (by rw [hp]; rfl)
        · exact h.quiet_set (by simp [hp]) (by rw [hp]; rfl) (by rw [hp]; rfl)
      exact hset.quiet rfl rfl rfl le_rfl fun q => .inr (.inr rfl)
  | @lose p hp =>
      refine h.quiet rfl rfl rfl le_rfl fun q => ?_
      by_cases hqp : q = p
      · exact .inl (hqp ▸ State.set_phase_self s p _)
      · exact .inr (.inr (s.set_phase_ne hqp _))

end Sends

namespace Waits
variable {s s' : State P D E}

omit [DecidableEq P] in
/-- No party begins to wait and none is woken. -/
theorem quiet (h : Waits s) (hwoken : s'.hist.woken = s.hist.woken) (hnext : s.next ≤ s'.next)
    (hphase : ∀ q k, (s'.phase q).receive? = some k → (s.phase q).receive? = some k) :
    Waits s' := by
  constructor
  · intro q k hq
    obtain ⟨hlt, hnot⟩ := h.fresh q k (hphase q k hq)
    exact ⟨hlt.trans_le hnext, hwoken ▸ hnot⟩
  · intro p q k hp hq
    exact h.unique p q k (hphase p k hp) (hphase q k hq)
  · intro k hk
    exact (h.woken_lt k (hwoken ▸ hk)).trans_le hnext
  · exact hwoken ▸ h.woken_nodup

private theorem receive_of_set {p q : P} {φ : Phase D E} {k : Nat}
    (hφ : ∀ k, φ.receive? = some k → (s.phase p).receive? = some k)
    (hq : ((s.set p φ).phase q).receive? = some k) : (s.phase q).receive? = some k := by
  by_cases hqp : q = p
  · subst hqp
    rw [State.set_phase_self] at hq
    exact hφ k hq
  · rwa [s.set_phase_ne hqp] at hq

theorem receive (h : Waits s) {p : P} :
    Waits { s.set p (.waiting s.next) with next := s.next + 1 } := by
  have hphase : ∀ q k, ((s.set p (.waiting s.next)).phase q).receive? = some k →
      q = p ∧ k = s.next ∨ q ≠ p ∧ (s.phase q).receive? = some k ∧ k < s.next := by
    intro q k hq
    by_cases hqp : q = p
    · subst hqp
      rw [State.set_phase_self] at hq
      cases hq
      exact .inl ⟨rfl, rfl⟩
    · rw [s.set_phase_ne hqp] at hq
      exact .inr ⟨hqp, hq, (h.fresh q k hq).1⟩
  constructor
  · intro q k hq
    rcases hphase q k hq with ⟨-, rfl⟩ | ⟨-, hq, hlt⟩
    · exact ⟨Nat.lt_succ_self _, fun hk => absurd (h.woken_lt _ hk) (lt_irrefl _)⟩
    · exact ⟨hlt.trans (Nat.lt_succ_self _), (h.fresh q k hq).2⟩
  · intro q r k hq hr
    rcases hphase q k hq with ⟨rfl, rfl⟩ | ⟨-, hq, hlt⟩
    · rcases hphase r _ hr with ⟨rfl, -⟩ | ⟨-, -, hlt⟩
      · rfl
      · exact absurd hlt (lt_irrefl _)
    · rcases hphase r k hr with ⟨rfl, rfl⟩ | ⟨-, hr, -⟩
      · exact absurd hlt (lt_irrefl _)
      · exact h.unique q r k hq hr
  · intro k hk
    exact (h.woken_lt k hk).trans (Nat.lt_succ_self _)
  · exact h.woken_nodup

theorem wake (h : Waits s) {p : P} {k : Nat} (o : Option E) (hp : (s.phase p).receive? = some k) :
    Waits { s.set p .idle with hist := s.hist.wake k o } := by
  obtain ⟨hlt, hnew⟩ := h.fresh p k hp
  have hmem : ∀ j, j ∈ (s.hist.woken ++ [(k, o)]).map Prod.fst ↔
      j ∈ s.hist.woken.map Prod.fst ∨ j = k := by simp
  have hphase : ∀ q j, ((s.set p .idle).phase q).receive? = some j →
      (s.phase q).receive? = some j ∧ j ≠ k := by
    intro q j hq
    by_cases hqp : q = p
    · subst hqp
      rw [State.set_phase_self] at hq
      cases hq
    · rw [s.set_phase_ne hqp] at hq
      exact ⟨hq, fun hjk => hqp (h.unique q p k (hjk ▸ hq) hp)⟩
  constructor
  · intro q j hq
    obtain ⟨hq, hne⟩ := hphase q j hq
    exact ⟨(h.fresh q j hq).1, fun hj => ((hmem j).mp hj).elim (h.fresh q j hq).2 hne⟩
  · intro q r j hq hr
    exact h.unique q r j (hphase q j hq).1 (hphase r j hr).1
  · intro j hj
    rcases (hmem j).mp hj with hj | rfl
    · exact h.woken_lt j hj
    · exact hlt
  · simpa [History.wake, List.nodup_append, h.woken_nodup] using
      fun j e hj heq => hnew (List.mem_map.mpr ⟨_, hj, heq⟩)

theorem step (h : Waits s) (hstep : Step s s') : Waits s' := by
  cases hstep with
  | tick k => exact h.quiet rfl (Nat.le_add_right _ _) fun _ _ hq => hq
  | send d hp =>
      exact h.quiet rfl (Nat.le_succ _) fun _ _ => receive_of_set fun _ hk => by cases hk
  | enqueue hp => exact h.quiet rfl le_rfl fun _ _ => receive_of_set fun _ hk => by cases hk
  | hand hp => exact h.quiet rfl le_rfl fun _ _ => receive_of_set fun _ hk => by cases hk
  | take hp => exact h.quiet rfl le_rfl fun _ _ => receive_of_set fun _ hk => by cases hk
  | announce hp => exact h.quiet rfl le_rfl fun _ _ => receive_of_set fun _ hk => by cases hk
  | refuse e hp => exact h.quiet rfl le_rfl fun _ _ => receive_of_set fun _ hk => by cases hk
  | complete hp => exact h.quiet rfl le_rfl fun _ _ => receive_of_set fun _ hk => by cases hk
  | receive hp => exact h.receive
  | claim o hp => exact h.quiet rfl le_rfl fun _ _ => receive_of_set fun _ hk => by rw [hp]; exact hk
  | wake o hp => exact h.wake o (by rcases hp with hp | hp <;> rw [hp] <;> rfl)
  | lose hp => exact h.quiet rfl le_rfl fun _ _ => receive_of_set fun _ hk => by cases hk

end Waits

/-! Whole runs. -/

variable {s s' : State P D E}

def State.initial (next : Nat) : State P D E := ⟨fun _ => .idle, next, ⟨[], [], [], []⟩⟩

omit [DecidableEq P] in
theorem Sends.initial (next : Nat) : Sends (State.initial (P := P) (D := D) (E := E) next) := by
  constructor <;> simp [State.initial, Phase.send?]

omit [DecidableEq P] in
theorem Waits.initial (next : Nat) : Waits (State.initial (P := P) (D := D) (E := E) next) := by
  constructor <;> simp [State.initial, Phase.receive?]

theorem Sends.run (h : Sends s) (hrun : ReflTransGen Step s s') : Sends s' := by
  induction hrun with
  | refl => exact h
  | tail _ hstep ih => exact ih.step hstep

theorem Waits.run (h : Waits s) (hrun : ReflTransGen Step s s') : Waits s' := by
  induction hrun with
  | refl => exact h
  | tail _ hstep ih => exact ih.step hstep

/-- What is completed stays so. -/
theorem completed_mono (hrun : ReflTransGen Step s s') : s.hist.completed ⊆ s'.hist.completed := by
  induction hrun with
  | refl => exact List.Subset.refl _
  | tail _ hstep ih =>
      refine List.Subset.trans ih ?_
      cases hstep with
      | complete hp => exact List.subset_append_left _ _
      | _ => exact List.Subset.refl _

end Protocol

end Rendezvous
