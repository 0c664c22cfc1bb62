import Emilua.Sched.Runtime

/-!
Where a suspended fiber is kept. It is in the wait list of the call it is
suspended in, or a resume of it has been posted; in one of these places, and
there once. A fiber that runs or has ended is in none.
-/
namespace Emilua.Sched
open Transition

inductive Place where
  | queue (q : Queue)
  | joiner (g : FiberId)
  | io
  | receive
  | send
  | strand
deriving DecidableEq, Repr

def Joiner.toList : Joiner → List FiberId
  | .fiber g => [g]
  | .nil | .detached => []

/-- The fiber that is resumed when this one ends. -/
def Fiber.waiter (x : Fiber) : List FiberId :=
  match x.phase with
  | .finished _ => []
  | .running | .suspended _ => x.joiner.toList

def State.at (s : State) : Place → List FiberId
  | .queue q => s.queues q
  | .joiner g => (s.fibers g).waiter
  | .io => s.ops.map Op.fiber
  | .receive => s.recvFiber.toList
  | .send => s.sends.map Prod.fst
  | .strand => s.strand.map Post.fiber

def Wait.place : Wait → Option Place
  | .start | .yield => none
  | .queue q => some (.queue q)
  | .join g => some (.joiner g)
  | .io => some .io
  | .receive => some .receive
  | .send => some .send

/-- The call sets no interrupter, and its resume clears none. -/
def Wait.silent : Wait → Bool
  | .start | .yield | .queue (.mutex _) | .queue (.recursiveMutex _) => true
  | _ => false

def Interrupter.fits : Interrupter → Wait → Bool
  | .none, _ => true
  | .queue q, .queue q' => q = q' && !(Wait.queue q').silent
  | .join g, .join g' => g = g'
  | .signal, .io | .pipe _, .io | .receive, .receive | .send, .send => true
  | _, _ => false

def Phase.Fits : Phase → Option Place → Prop
  | .suspended w, o => o = some .strand ∨ ∃ l, w.place = some l ∧ o = some l
  | .running, o | .finished _, o => o = none

/-- Fiber `f` is in place `o` and nowhere else. -/
def State.Home (s : State) (f : FiberId) (o : Option Place) : Prop :=
  ∀ l, (s.at l).count f = if o = some l then 1 else 0

structure Settled (s : State) (f : FiberId) : Prop where
  placed : ∃ o, (s.fibers f).phase.Fits o ∧ s.Home f o
  running : (s.fibers f).phase = .running ↔ s.current = some f
  armed : (s.fibers f).interrupter ≠ .none → (s.fibers f).disabled.on = false ∧
    ∃ w, (s.fibers f).phase = .suspended w ∧ (s.fibers f).interrupter.fits w = true
  joining : ∀ g, (s.fibers f).interrupter = .join g → f ∈ s.at (.joiner g)
  silent : ∀ p ∈ s.strand, p.fiber = f → p.skipClear = true →
    ∀ w, (s.fibers f).phase = .suspended w → w.silent = true
  fresh : s.fiberCount ≤ f → ∃ ok, (s.fibers f).phase = .finished ok

def Coherent (s : State) : Prop := ∀ f, Settled s f

/-- What the fiber waits for is as before; its interrupter may be gone. -/
def Fiber.Calm (x' x : Fiber) : Prop :=
  x'.phase = x.phase ∧
    (x'.interrupter = .none ∨ x'.interrupter = x.interrupter ∧ x'.disabled = x.disabled)

/-- The step from `s` to `s'` passes fiber `f` by. -/
structure Passes (s s' : State) (f : FiberId) : Prop where
  calm : (s'.fibers f).Calm (s.fibers f)
  counts : ∀ l, (s'.at l).count f = (s.at l).count f
  posts : ∀ p ∈ s'.strand, p.fiber = f → p ∈ s.strand
  current : s'.current = some f ↔ s.current = some f
  count : s.fiberCount ≤ s'.fiberCount

section
variable {s s' s'' : State} {f g : FiberId} {l : Place} {w : Wait}

theorem Fiber.Calm.refl (x : Fiber) : x.Calm x := ⟨rfl, .inr ⟨rfl, rfl⟩⟩

theorem Fiber.Calm.trans {x y z : Fiber} (h : y.Calm x) (h' : z.Calm y) : z.Calm x := by
  refine ⟨h'.1.trans h.1, ?_⟩
  rcases h'.2 with hnone | ⟨hi, hd⟩
  · exact .inl hnone
  · rcases h.2 with hnone | ⟨hi', hd'⟩
    · exact .inl (hi.trans hnone)
    · exact .inr ⟨hi.trans hi', hd.trans hd'⟩

theorem Passes.trans (h : Passes s s' f) (h' : Passes s' s'' f) : Passes s s'' f where
  calm := h.calm.trans h'.calm
  counts l := (h'.counts l).trans (h.counts l)
  posts p hp hf := h.posts p (h'.posts p hp hf) hf
  current := h'.current.trans h.current
  count := h.count.trans h'.count

theorem Settled.of_passes (h : Settled s f) (hp : Passes s s' f) : Settled s' f := by
  have hphase := hp.calm.1
  have hmem : ∀ l, f ∈ s'.at l ↔ f ∈ s.at l := fun l => by
    rw [← List.count_pos_iff, hp.counts l, List.count_pos_iff]
  constructor
  · obtain ⟨o, hfits, hhome⟩ := h.placed
    exact ⟨o, hphase ▸ hfits, fun l => (hp.counts l).trans (hhome l)⟩
  · rw [hphase, hp.current]
    exact h.running
  · intro hi
    rcases hp.calm.2 with hnone | ⟨heq, hdis⟩
    · exact absurd hnone hi
    · rw [hdis, heq, hphase]
      exact h.armed (heq ▸ hi)
  · intro g hg
    rcases hp.calm.2 with hnone | ⟨heq, -⟩
    · rw [hnone] at hg
      cases hg
    · rw [hmem]
      exact h.joining g (heq ▸ hg)
  · intro p hmem hf
    rw [hphase]
    exact h.silent p (hp.posts p hmem hf) hf
  · intro hle
    rw [hphase]
    exact h.fresh (hp.count.trans hle)

/-! How the wait lists change under the updates of the state. -/

@[simp] theorem State.setFiber_fibers_self (s : State) (f : FiberId) (k : Fiber → Fiber) :
    (s.setFiber f k).fibers f = k (s.fibers f) := Function.update_self ..

theorem State.setFiber_fibers_ne (s : State) (h : g ≠ f) (k : Fiber → Fiber) :
    (s.setFiber f k).fibers g = s.fibers g := Function.update_of_ne h ..

section
variable (x : Fiber) (i : Interrupter)

@[simp] theorem Fiber.setInterrupter_kind : (x.setInterrupter i).kind = x.kind := by
  unfold Fiber.setInterrupter
  split <;> rfl

@[simp] theorem Fiber.setInterrupter_phase : (x.setInterrupter i).phase = x.phase := by
  unfold Fiber.setInterrupter
  split <;> rfl

@[simp] theorem Fiber.setInterrupter_listed : (x.setInterrupter i).listed = x.listed := by
  unfold Fiber.setInterrupter
  split <;> rfl

@[simp] theorem Fiber.setInterrupter_joiner : (x.setInterrupter i).joiner = x.joiner := by
  unfold Fiber.setInterrupter
  split <;> rfl

@[simp] theorem Fiber.setInterrupter_status : (x.setInterrupter i).status = x.status := by
  unfold Fiber.setInterrupter
  split <;> rfl

@[simp] theorem Fiber.setInterrupter_userHandle : (x.setInterrupter i).userHandle = x.userHandle := by
  unfold Fiber.setInterrupter
  split <;> rfl

@[simp] theorem Fiber.setInterrupter_disabled : (x.setInterrupter i).disabled = x.disabled := by
  unfold Fiber.setInterrupter
  split <;> rfl

@[simp] theorem Fiber.setInterrupter_interrupted : (x.setInterrupter i).interrupted = x.interrupted := by
  unfold Fiber.setInterrupter
  split <;> rfl

end

theorem Fiber.waiter_of_joiner {x x' : Fiber} (hj : x'.joiner = x.joiner) (h : ∀ ok, x.phase ≠ .finished ok)
    (h' : ∀ ok, x'.phase ≠ .finished ok) : x'.waiter = x.waiter := by
  cases hphase : x.phase with
  | finished ok => exact absurd hphase (h ok)
  | running | suspended _ =>
      cases hphase' : x'.phase with
      | finished ok => exact absurd hphase' (h' ok)
      | running | suspended _ => simp only [Fiber.waiter, hj, hphase, hphase']

/-- A change of one fiber moves nobody if it leaves the fiber's waiter alone. -/
theorem State.at_of_update {x : Fiber} (hx : x.waiter = (s.fibers f).waiter)
    (hfibers : s'.fibers = Function.update s.fibers f x)
    (hrest : ∀ l, (∀ g, l ≠ .joiner g) → s'.at l = s.at l) (l : Place) : s'.at l = s.at l := by
  cases l with
  | joiner g =>
      by_cases hg : g = f
      · subst hg
        simp only [State.at, hfibers, Function.update_self, hx]
      · simp only [State.at, hfibers, Function.update_of_ne hg]
  | _ => exact hrest _ nofun

theorem State.at_setFiber {k : Fiber → Fiber} (hk : (k (s.fibers f)).waiter = (s.fibers f).waiter)
    (l : Place) : (s.setFiber f k).at l = s.at l := by
  refine State.at_of_update hk rfl (fun l hl => ?_) l
  cases l with
  | joiner g => exact absurd rfl (hl g)
  | _ => rfl

theorem State.at_setQueue (s : State) (q : Queue) (xs : List FiberId) (l : Place) :
    (s.setQueue q xs).at l = if l = .queue q then xs else s.at l := by
  cases l with
  | queue q' =>
      by_cases hq : q' = q
      · subst hq
        rw [if_pos rfl]
        exact Function.update_self ..
      · rw [if_neg (by simpa using hq)]
        exact Function.update_of_ne hq ..
  | _ => rfl

theorem State.at_post (s : State) (f : FiberId) (a : Args) (k : Bool) (l : Place) :
    (s.post f a k).at l = s.at l ++ if l = .strand then [f] else [] := by
  cases l <;> simp [State.at, State.post]

theorem State.at_wakeAll (s : State) (q : Queue) (o : Outcome) (l : Place) :
    (s.wakeAll q o).at l =
      if l = .strand then s.at l ++ s.queues q else if l = .queue q then [] else s.at l := by
  cases l with
  | queue q' =>
      by_cases hq : q' = q
      · subst hq
        rw [if_neg nofun, if_pos rfl]
        exact Function.update_self ..
      · rw [if_neg nofun, if_neg (by simpa using hq)]
        exact Function.update_of_ne hq ..
  | strand => simp [State.at, State.wakeAll, Function.comp_def]
  | _ => rfl

theorem State.at_setOps (s : State) (ops : List Op) (l : Place) :
    (s.setOps ops).at l = if l = .io then ops.map Op.fiber else s.at l := by
  cases l <;> rfl

theorem State.at_setSends (s : State) (sends : List (FiberId × Bool)) (l : Place) :
    (s.setSends sends).at l = if l = .send then sends.map Prod.fst else s.at l := by
  cases l <;> rfl

theorem State.at_setReceiver (s : State) (r : Option FiberId) (l : Place) :
    (s.setReceiver r).at l = if l = .receive then r.toList else s.at l := by
  cases l <;> rfl

theorem Wait.place_eq_queue {q : Queue} (h : w.place = some (.queue q)) : w = .queue q := by
  cases w <;> simp_all [Wait.place]

namespace Settled

/-- The fibers in the wait list of a call are suspended in it. -/
theorem of_mem (h : Settled s f) (hl : l ≠ .strand) (hf : f ∈ s.at l) :
    ∃ w, (s.fibers f).phase = .suspended w ∧ w.place = some l ∧ s.Home f (some l) := by
  obtain ⟨o, hfits, hhome⟩ := h.placed
  have hcount := hhome l
  have hpos : 0 < (s.at l).count f := List.count_pos_iff.mpr hf
  have ho : o = some l := by
    by_contra hno
    rw [if_neg hno] at hcount
    omega
  subst ho
  cases hphase : (s.fibers f).phase with
  | suspended w =>
      rw [hphase] at hfits
      rcases hfits with hstrand | ⟨l', hplace, heq⟩
      · exact absurd (Option.some.inj hstrand) hl
      · exact ⟨w, rfl, heq ▸ hplace, hhome⟩
  | running =>
      rw [hphase] at hfits
      cases hfits
  | finished ok =>
      rw [hphase] at hfits
      cases hfits

theorem of_posted (h : Settled s f) (hf : f ∈ s.at .strand) :
    ∃ w, (s.fibers f).phase = .suspended w ∧ s.Home f (some .strand) := by
  obtain ⟨o, hfits, hhome⟩ := h.placed
  have hcount := hhome .strand
  have hpos : 0 < (s.at .strand).count f := List.count_pos_iff.mpr hf
  have ho : o = some .strand := by
    by_contra hno
    rw [if_neg hno] at hcount
    omega
  subst ho
  cases hphase : (s.fibers f).phase with
  | suspended w => exact ⟨w, rfl, hhome⟩
  | running =>
      rw [hphase] at hfits
      cases hfits
  | finished ok =>
      rw [hphase] at hfits
      cases hfits

/-- A fiber that is not suspended is nowhere. -/
theorem home_none (h : Settled s f) (hf : ∀ w, (s.fibers f).phase ≠ .suspended w) : s.Home f none := by
  obtain ⟨o, hfits, hhome⟩ := h.placed
  cases hphase : (s.fibers f).phase with
  | suspended w => exact absurd hphase (hf w)
  | running =>
      rw [hphase] at hfits
      exact hfits ▸ hhome
  | finished ok =>
      rw [hphase] at hfits
      exact hfits ▸ hhome

theorem home_running (h : Settled s f) (hf : s.current = some f) : s.Home f none :=
  h.home_none fun w hw => by
    have hrun := h.running.mpr hf
    rw [hw] at hrun
    cases hrun

theorem not_armed (h : Settled s f) (hf : ∀ w, (s.fibers f).phase ≠ .suspended w) :
    (s.fibers f).interrupter = .none := by
  by_contra hi
  obtain ⟨-, w, hw, -⟩ := h.armed hi
  exact hf w hw

end Settled

theorem State.Home.not_mem (h : s.Home f none) (l : Place) : f ∉ s.at l := by
  intro hmem
  have hcount := h l
  rw [if_neg (by simp)] at hcount
  exact absurd (List.count_pos_iff.mpr hmem) (by omega)

end

end Emilua.Sched
