import Emilua.Supervisor.Service

/-!
The program and its supervisor. One VM of the program, the master, makes calls that
change its process, and has the supervisor repeat them; any VM may ask for new
processes meanwhile. What they send goes through one socket, in order.
-/
namespace Emilua.Supervisor.Mirror

variable {A C : Type}

/-- What is in the socket. -/
inductive Entry (C : Type) where
  | create (id : Nat) (r : CreateProcess) (given : Nat → File)
  | set (op : Op C) (pipe : Nat)

def Entry.message (cap : LibCap C) : Entry C → Message
  | .create id r given => r.message (.channel id false) given
  | .set op pipe => op.message cap (.reply pipe)

def Entry.isSet : Entry C → Bool
  | .create _ _ _ => false
  | .set _ _ => true

/-- The master is between two calls, has called and not sent yet, waits for the
reply, or has ended the process. -/
inductive Phase (A C : Type) where
  | idle
  | called (before : A) (op : Op C)
  | waiting (before : A) (op : Op C)
  | ended

/-- `asked` has for each process that was asked for what the program was like then,
and `made` the attributes of those that were made, with the ends of their channels. -/
structure System (A C : Type) where
  attrs : A
  phase : Phase A C
  queue : List (Entry C)
  replied : Bool
  service : Option (Service A)
  asked : List (A × Phase A C)
  made : List (Option File × A)

/-- What an event adds to the processes. -/
def madeBy : Event A → List (Option File × A)
  | .created child _ replyTo => [(replyTo, child.attrs)]
  | _ => []

def repliedBy : Event A → Bool
  | .answered (some _) => true
  | _ => false

def Phase.isEnded : Phase A C → Bool
  | .ended => true
  | _ => false

inductive Step (cap : LibCap C) (effect : Op C → A → A) (s : System A C) : System A C → Prop
  /-- A call that failed is raised as an error, so that only the others matter. -/
  | call (op : Op C) (hphase : s.phase = .idle) :
      Step cap effect s { s with attrs := effect op.call s.attrs, phase := .called s.attrs op }
  | send (before : A) (op : Op C) (pipe : Nat) (hphase : s.phase = .called before op) :
      Step cap effect s { s with queue := s.queue ++ [.set op pipe], phase := .waiting before op, replied := false }
  | notSent (before : A) (op : Op C) (hphase : s.phase = .called before op) : Step cap effect s { s with phase := .ended }
  | reply (before : A) (op : Op C) (hphase : s.phase = .waiting before op) (hreplied : s.replied = true) :
      Step cap effect s { s with phase := .idle, replied := false }
  | noReply (before : A) (op : Op C) (hphase : s.phase = .waiting before op) (hreplied : s.replied = false)
      (hgone : s.service = none ∨ ∀ e ∈ s.queue, e.isSet = false) : Step cap effect s { s with phase := .ended }
  | ask (r : CreateProcess) (given : Nat → File) (hphase : s.phase.isEnded = false) :
      Step cap effect s { s with
        queue := s.queue ++ [.create s.asked.length r given], asked := s.asked ++ [(s.attrs, s.phase)] }
  | serve (v v' : Service A) (a : Answers) (m : Entry C) (queue : List (Entry C)) (e : Event A) (hservice : s.service = some v)
      (hqueue : s.queue = m :: queue) (hnext : v.handle cap effect a (m.message cap) = .next v' e) :
      Step cap effect s { s with
        queue := queue, service := some v', replied := s.replied || repliedBy e, made := s.made ++ madeBy e }
  | fall (v : Service A) (a : Answers) (m : Entry C) (queue : List (Entry C)) (hservice : s.service = some v)
      (hqueue : s.queue = m :: queue) (hnext : ∀ v' e, v.handle cap effect a (m.message cap) ≠ .next v' e) :
      Step cap effect s { s with queue := queue, service := none }

/-- A new program, and a supervisor that is like it. -/
def Start (s : System A C) : Prop := s.phase = .idle ∧ s.queue = [] ∧ s.replied = false ∧ s.asked = [] ∧ s.made = [] ∧
  ∀ v, s.service = some v → AtRest v.table ∧ v.attrs = s.attrs

/-- The attributes that a process has to have, by what the program was like when it was asked for. -/
def due (x : A × Phase A C) : A :=
  match x.2 with
  | .called before _ => before
  | _ => x.1

/-- How many requests to repeat a call may be in the socket. -/
def pending : Phase A C → Bool → Nat
  | .waiting _ _, false => 1
  | _, _ => 0

/-- The ends that are to be given to new processes. -/
def Entry.inbox : Entry C → Option (Option File)
  | .create id _ _ => some (some (.channel id false))
  | .set _ _ => none

section
variable {cap : LibCap C} {effect : Op C → A → A} {s s' : System A C} {v v' : Service A} {q q' : List (Entry C)}
  {asked : List (A × Phase A C)} {x y : A}

/-- The attributes of the supervisor behind what is in the socket. -/
def after (effect : Op C → A → A) : List (Entry C) → A → A
  | [], x => x
  | .create _ _ _ :: q, x => after effect q x
  | .set op _ :: q, x => after effect q (effect op.call x)

def Allowed (asked : List (A × Phase A C)) (id : Nat) (x : A) : Prop := ∃ y, asked[id]? = some y ∧ x = due y

/-- The processes that are asked for in the socket will have the attributes that they have to. -/
def Promised (effect : Op C → A → A) (asked : List (A × Phase A C)) : List (Entry C) → A → Prop
  | [], _ => True
  | .create id _ _ :: q, x => Allowed asked id x ∧ Promised effect asked q x
  | .set op _ :: q, x => Promised effect asked q (effect op.call x)

theorem Allowed.append {id : Nat} (h : Allowed asked id x) (more : A × Phase A C) : Allowed (asked ++ [more]) id x := by
  obtain ⟨y, hy, hx⟩ := h
  exact ⟨y, List.getElem?_append_left (List.getElem?_eq_some_iff.mp hy).1 ▸ hy, hx⟩

theorem Promised.more (h : Promised effect asked q x) (more : A × Phase A C) : Promised effect (asked ++ [more]) q x := by
  induction q generalizing x with
  | nil => trivial
  | cons e q ih =>
      cases e with
      | create id r given => exact ⟨h.1.append more, ih h.2⟩
      | set op pipe => exact ih h

theorem promised_append : Promised effect asked (q ++ q') x ↔ Promised effect asked q x ∧ Promised effect asked q' (after effect q x) := by
  induction q generalizing x with
  | nil => exact ⟨fun h => ⟨trivial, h⟩, And.right⟩
  | cons e q ih =>
      cases e with
      | create id r given => exact (and_congr_right fun _ => ih).trans and_assoc.symm
      | set op pipe => exact ih

theorem after_append : after effect (q ++ q') x = after effect q' (after effect q x) := by
  induction q generalizing x with
  | nil => rfl
  | cons e q ih =>
      cases e with
      | create id r given => exact ih
      | set op pipe => exact ih

theorem after_creates (h : q.countP Entry.isSet = 0) : after effect q x = x := by
  induction q with
  | nil => rfl
  | cons e q ih =>
      cases e with
      | create id r given => exact ih h
      | set op pipe =>
          rw [List.countP_cons_of_pos rfl] at h
          cases h

/-- The inboxes of the processes that were made, and of those that were asked for in the socket. -/
def System.inboxes (s : System A C) : List (Option File) := s.made.map Prod.fst ++ s.queue.filterMap Entry.inbox

/-- While the program has not ended, the supervisor will be like it once the socket
is empty; and whoever has been asked for comes with what is due and once. -/
structure Inv (effect : Op C → A → A) (s : System A C) : Prop where
  rest : ∀ v, s.service = some v → AtRest v.table
  pending : s.phase.isEnded = false → s.queue.countP Entry.isSet ≤ pending s.phase s.replied
  called : ∀ before op, s.phase = .called before op → s.attrs = effect op.call before
  mirrored : s.phase.isEnded = false → ∀ v, s.service = some v → after effect s.queue v.attrs = due (s.attrs, s.phase)
  waiting : ∀ before op, s.phase = .waiting before op →
    s.queue.countP Entry.isSet = 0 ∨ ∀ v, s.service = some v → v.attrs = before
  promised : ∀ v, s.service = some v → Promised effect s.asked s.queue v.attrs
  made : ∀ p ∈ s.made, ∃ id, p.1 = some (.channel id false) ∧ Allowed s.asked id p.2
  once : s.inboxes.Nodup
  known : ∀ inbox ∈ s.inboxes, ∃ id < s.asked.length, inbox = some (.channel id false)

theorem start_inv (h : Start s) : Inv effect s := by
  obtain ⟨hphase, hqueue, -, hasked, hmade, hservice⟩ := h
  have hinboxes : s.inboxes = [] := by
    rw [System.inboxes, hqueue, hmade]
    rfl
  refine ⟨fun v hv => (hservice v hv).1, ?_, ?_, ?_, ?_, ?_, ?_, ?_, ?_⟩
  · intro _
    rw [hqueue]
    exact Nat.zero_le _
  · intro before op hcalled
    cases hphase.symm.trans hcalled
  · intro _ v hv
    rw [hqueue, hphase]
    exact (hservice v hv).2
  · intro before op hwaiting
    cases hphase.symm.trans hwaiting
  · intro v hv
    rw [hqueue]
    trivial
  · intro p hp
    rw [hmade] at hp
    cases hp
  · rw [hinboxes]
    exact List.nodup_nil
  · intro inbox hin
    rw [hinboxes] at hin
    cases hin

theorem Inv.call (h : Inv effect s) (op : Op C) (hphase : s.phase = .idle) :
    Inv effect { s with attrs := effect op.call s.attrs, phase := .called s.attrs op } := by
  have hpending := h.pending
  have hmirrored := h.mirrored
  rw [hphase] at hpending hmirrored
  refine ⟨h.rest, fun _ => hpending rfl, ?_, fun _ => hmirrored rfl, ?_, h.promised, h.made, h.once, h.known⟩
  · intro before op' hcalled
    cases hcalled
    rfl
  · intro before op' hwaiting
    cases hwaiting

theorem Inv.send (h : Inv effect s) (before : A) (op : Op C) (pipe : Nat) (hphase : s.phase = .called before op) :
    Inv effect { s with queue := s.queue ++ [.set op pipe], phase := .waiting before op, replied := false } := by
  have hpending := h.pending
  have hmirrored := h.mirrored
  rw [hphase] at hpending hmirrored
  have hinboxes : ({ s with queue := s.queue ++ [.set op pipe], phase := .waiting before op, replied := false } :
      System A C).inboxes = s.inboxes := by
    rw [System.inboxes, System.inboxes, List.filterMap_append]
    exact congrArg _ (List.append_nil _)
  refine ⟨h.rest, ?_, ?_, ?_, ?_, ?_, h.made, hinboxes ▸ h.once, hinboxes ▸ h.known⟩
  · intro _
    rw [List.countP_append]
    exact Nat.add_le_add_right (hpending rfl) 1
  · intro before' op' hcalled
    cases hcalled
  · intro _ v hv
    rw [after_append, hmirrored rfl v hv]
    exact (h.called before op hphase).symm
  · intro before' op' hwaiting
    cases hwaiting
    refine .inr fun v hv => ?_
    exact (after_creates (Nat.le_zero.mp (hpending rfl))).symm.trans (hmirrored rfl v hv)
  · intro v hv
    exact promised_append.mpr ⟨h.promised v hv, trivial⟩

theorem Inv.end (h : Inv effect s) : Inv effect { s with phase := .ended } := by
  refine ⟨h.rest, ?_, ?_, ?_, ?_, h.promised, h.made, h.once, h.known⟩
  · intro hended
    cases hended
  · intro before op hcalled
    cases hcalled
  · intro hended
    cases hended
  · intro before op hwaiting
    cases hwaiting

theorem Inv.reply (h : Inv effect s) (before : A) (op : Op C) (hphase : s.phase = .waiting before op) (hreplied : s.replied = true) :
    Inv effect { s with phase := .idle, replied := false } := by
  have hpending := h.pending
  have hmirrored := h.mirrored
  rw [hphase, hreplied] at hpending
  rw [hphase] at hmirrored
  refine ⟨h.rest, fun _ => hpending rfl, ?_, fun _ => hmirrored rfl, ?_, h.promised, h.made, h.once, h.known⟩
  · intro before' op' hcalled
    cases hcalled
  · intro before' op' hwaiting
    cases hwaiting

theorem Inv.ask (h : Inv effect s) (r : CreateProcess) (given : Nat → File) (hphase : s.phase.isEnded = false) :
    Inv effect { s with
      queue := s.queue ++ [.create s.asked.length r given], asked := s.asked ++ [(s.attrs, s.phase)] } := by
  have hinboxes : ({ s with
      queue := s.queue ++ [.create s.asked.length r given], asked := s.asked ++ [(s.attrs, s.phase)] } : System A C).inboxes =
        s.inboxes ++ [some (.channel s.asked.length false)] := by
    rw [System.inboxes, System.inboxes, List.filterMap_append, List.append_assoc]
    rfl
  refine ⟨h.rest, ?_, h.called, ?_, ?_, ?_, ?_, ?_, ?_⟩
  · intro _
    rw [List.countP_append]
    exact h.pending hphase
  · intro _ v hv
    rw [after_append]
    exact h.mirrored hphase v hv
  · intro before op hwaiting
    rw [List.countP_append]
    exact h.waiting before op hwaiting
  · intro v hv
    refine promised_append.mpr ⟨(h.promised v hv).more _, ⟨(s.attrs, s.phase), ?_, h.mirrored hphase v hv⟩, trivial⟩
    rw [List.getElem?_append_right (Nat.le_refl _), Nat.sub_self]
    rfl
  · intro p hp
    obtain ⟨id, hid, hallowed⟩ := h.made p hp
    exact ⟨id, hid, hallowed.append _⟩
  · rw [hinboxes, List.nodup_append]
    refine ⟨h.once, List.nodup_singleton _, ?_⟩
    -- the number of the new process is beyond all others
    intro inbox hin inbox' hin' heq
    obtain ⟨id, hid, hinbox⟩ := h.known inbox hin
    rw [List.mem_singleton.mp hin', hinbox] at heq
    cases heq
    exact Nat.lt_irrefl _ hid
  · rw [hinboxes]
    intro inbox hin
    have hlen : (s.asked ++ [(s.attrs, s.phase)]).length = s.asked.length + 1 := List.length_append
    rcases List.mem_append.mp hin with hin | hin
    · obtain ⟨id, hid, hinbox⟩ := h.known inbox hin
      exact ⟨id, hlen ▸ Nat.lt_succ_of_lt hid, hinbox⟩
    · exact ⟨s.asked.length, hlen ▸ Nat.lt_succ_self _, List.mem_singleton.mp hin⟩

theorem Inv.fall (h : Inv effect s) (m : Entry C) (queue : List (Entry C)) (hqueue : s.queue = m :: queue) :
    Inv effect { s with queue := queue, service := none } := by
  have hsub : queue.Sublist s.queue := hqueue ▸ List.sublist_cons_self m queue
  have hinboxes : ({ s with queue := queue, service := none } : System A C).inboxes.Sublist s.inboxes :=
    (List.Sublist.refl _).append (hsub.filterMap _)
  refine ⟨?_, ?_, h.called, ?_, ?_, ?_, h.made, h.once.sublist hinboxes, fun inbox hin => h.known inbox (hinboxes.subset hin)⟩
  · intro v hv
    cases hv
  · intro hphase
    exact (hsub.countP_le).trans (h.pending hphase)
  · intro _ v hv
    cases hv
  · intro before op hwaiting
    refine .inr fun v hv => ?_
    cases hv
  · intro v hv
    cases hv

theorem createProcess_silent {a : Answers} {r : CreateProcess} {files : List File} {e : Event A}
    (h : v.createProcess a r files = .next v' e) : repliedBy e = false := by
  rw [Service.createProcess] at h
  split at h
  · cases h
    rfl
  · rw [Service.create] at h
    dsimp only at h
    split at h
    · cases h
      rfl
    · cases h
      rfl

theorem Inv.serveCreate (h : Inv effect s) (v v' : Service A) (a : Answers) (id : Nat) (r : CreateProcess) (given : Nat → File)
    (queue : List (Entry C)) (e : Event A) (hservice : s.service = some v) (hqueue : s.queue = .create id r given :: queue)
    (hnext : v.createProcess a r (r.message (.channel id false) given).files = .next v' e) :
    Inv effect { s with
      queue := queue, service := some v', replied := s.replied || repliedBy e, made := s.made ++ madeBy e } := by
  obtain ⟨v₁, e₁, hcreate, hrest, hattrs, hcreated⟩ := createProcess_spec (h.rest v hservice) a r (.channel id false) given
  have hsilent := createProcess_silent hnext
  cases hcreate.symm.trans hnext
  have hpending := h.pending
  have hmirrored := fun hphase => h.mirrored hphase v hservice
  have hwaiting := h.waiting
  have hpromised := h.promised v hservice
  rw [hqueue] at hpending hmirrored hwaiting hpromised
  have hmade : ∀ p ∈ madeBy e, p = (some (.channel id false), v.attrs) := by
    intro p hp
    cases e with
    | created child pid replyTo =>
        obtain ⟨hstarts, hreply⟩ := hcreated child pid replyTo rfl
        rw [List.mem_singleton.mp hp, hreply, hstarts.attrs]
    | dropped => cases hp
    | refused code replyTo => cases hp
    | answered replyTo => cases hp
  have hshort : (madeBy e).length ≤ 1 := by
    cases e <;> first | exact Nat.zero_le 1 | exact Nat.le_refl 1
  have hnew : ((madeBy e).map Prod.fst).Sublist [some (.channel id false)] := by
    cases hlist : madeBy e with
    | nil => exact List.nil_sublist _
    | cons p ps =>
        rw [hlist] at hmade hshort
        rw [List.length_eq_zero_iff.mp (Nat.le_zero.mp (Nat.le_of_succ_le_succ hshort)), hmade p List.mem_cons_self]
        exact List.Sublist.refl _
  have hinboxes : ({ s with
      queue := queue, service := some v', replied := s.replied || repliedBy e, made := s.made ++ madeBy e } :
        System A C).inboxes.Sublist s.inboxes := by
    rw [System.inboxes, System.inboxes, hqueue, List.map_append, List.append_assoc]
    exact (List.Sublist.refl _).append (hnew.append (List.Sublist.refl _))
  refine ⟨?_, ?_, h.called, ?_, ?_, ?_, ?_, h.once.sublist hinboxes, fun inbox hin => h.known inbox (hinboxes.subset hin)⟩
  · intro w hw
    cases hw
    exact hrest
  · intro hphase
    rw [hsilent, Bool.or_false]
    exact hpending hphase
  · intro hphase w hw
    cases hw
    rw [hattrs]
    exact hmirrored hphase
  · intro before op hphase
    refine (hwaiting before op hphase).imp_right fun hbefore w hw => ?_
    cases hw
    rw [hattrs]
    exact hbefore v hservice
  · intro w hw
    cases hw
    rw [hattrs]
    exact hpromised.2
  · intro p hp
    rcases List.mem_append.mp hp with hp | hp
    · exact h.made p hp
    · rw [hmade p hp]
      exact ⟨id, rfl, hpromised.1⟩

theorem Inv.serveSet (hcap : cap.Lossless) (h : Inv effect s) (v v' : Service A) (a : Answers) (op : Op C) (pipe : Nat)
    (queue : List (Entry C)) (e : Event A) (hservice : s.service = some v) (hqueue : s.queue = .set op pipe :: queue)
    (hnext : v.set cap effect a (op.request cap) (op.message cap (.reply pipe)).files = .next v' e) :
    Inv effect { s with
      queue := queue, service := some v', replied := s.replied || repliedBy e, made := s.made ++ madeBy e } := by
  have hdone : AtRest v'.table ∧ v'.attrs = effect op.call v.attrs ∧ madeBy e = [] := by
    have hset := @set_spec _ _ _ effect _ hcap (h.rest v hservice) a op (.reply pipe)
    rw [hnext] at hset
    cases hset with
    | answered v' hrest hattrs => exact ⟨hrest, hattrs, rfl⟩
    | silent v' hroom hrest hattrs => exact ⟨hrest, hattrs, rfl⟩
  obtain ⟨hrest, hattrs, hmade⟩ := hdone
  have hpending := h.pending
  have hmirrored := fun hphase => h.mirrored hphase v hservice
  have hpromised := h.promised v hservice
  rw [hqueue] at hpending hmirrored hpromised
  have hinboxes : ({ s with
      queue := queue, service := some v', replied := s.replied || repliedBy e, made := s.made ++ madeBy e } :
        System A C).inboxes = s.inboxes := by
    rw [System.inboxes, System.inboxes, hqueue, hmade, List.append_nil]
    rfl
  have hnone : s.phase.isEnded = false → queue.countP Entry.isSet = 0 := by
    -- it was the only one
    intro hphase
    have hone := hpending hphase
    rw [List.countP_cons_of_pos rfl] at hone
    have hmost : Mirror.pending s.phase s.replied ≤ 1 := by
      rw [Mirror.pending.eq_def]
      split
      · exact Nat.le_refl 1
      · exact Nat.zero_le 1
    exact Nat.le_zero.mp (Nat.le_of_succ_le_succ (hone.trans hmost))
  refine ⟨?_, ?_, h.called, ?_, ?_, ?_, ?_, hinboxes ▸ h.once, hinboxes ▸ h.known⟩
  · intro w hw
    cases hw
    exact hrest
  · intro hphase
    rw [hnone hphase]
    exact Nat.zero_le _
  · intro hphase w hw
    cases hw
    rw [hattrs]
    exact hmirrored hphase
  · intro before op hphase
    refine .inl (hnone ?_)
    rw [hphase]
    rfl
  · intro w hw
    cases hw
    rw [hattrs]
    exact hpromised
  · rw [hmade, List.append_nil]
    exact h.made

theorem Inv.step (hcap : cap.Lossless) (h : Inv effect s) (hstep : Step cap effect s s') : Inv effect s' := by
  cases hstep with
  | call op hphase => exact h.call op hphase
  | send before op pipe hphase => exact h.send before op pipe hphase
  | notSent before op hphase => exact h.end
  | reply before op hphase hreplied => exact h.reply before op hphase hreplied
  | noReply before op hphase hreplied hgone => exact h.end
  | ask r given hphase => exact h.ask r given hphase
  | serve v v' a m queue e hservice hqueue hnext =>
      cases m with
      | create id r given => exact h.serveCreate v v' a id r given queue e hservice hqueue hnext
      | set op pipe => exact h.serveSet hcap v v' a op pipe queue e hservice hqueue hnext
  | fall v a m queue hservice hqueue hnext => exact h.fall m queue hqueue

/-- The system with its steps. -/
abbrev Reachable (cap : LibCap C) (effect : Op C → A → A) : System A C → Prop :=
  Transition.Reachable Start fun s (_ : Unit) s' => Step cap effect s s'

theorem reachable_inv (hcap : cap.Lossless) (hs : Reachable cap effect s) : Inv effect s :=
  hs.invariant (fun _ => start_inv) fun _ _ _ h hstep => h.step hcap hstep

/-- What the attributes `x` of the supervisor are by what the program is doing. -/
def System.Mirrors (s : System A C) (x : A) : Prop :=
  match s.phase with
  | .idle => x = s.attrs
  | .called before _ => x = before
  | .waiting before _ => x = s.attrs ∨ s.replied = false ∧ x = before
  | .ended => True

theorem Inv.mirrors (h : Inv effect s) (hv : s.service = some v) : s.Mirrors v.attrs := by
  have hpending := h.pending
  have hmirrored := fun hphase => h.mirrored hphase v hv
  have hsettled : s.queue.countP Entry.isSet = 0 → s.phase.isEnded = false → v.attrs = due (s.attrs, s.phase) :=
    fun hnone hphase => (after_creates hnone).symm.trans (hmirrored hphase)
  rw [System.Mirrors]
  cases hphase : s.phase with
  | idle =>
      rw [hphase] at hpending hsettled
      exact hsettled (Nat.le_zero.mp (hpending rfl)) rfl
  | called before op =>
      rw [hphase] at hpending hsettled
      exact hsettled (Nat.le_zero.mp (hpending rfl)) rfl
  | waiting before op =>
      rw [hphase] at hpending hsettled
      cases hreplied : s.replied with
      | true =>
          rw [hreplied] at hpending
          exact .inl (hsettled (Nat.le_zero.mp (hpending rfl)) rfl)
      | false =>
          rcases h.waiting before op hphase with hnone | hbefore
          · exact .inl (hsettled hnone rfl)
          · exact .inr ⟨rfl, hbefore v hv⟩
  | ended => trivial

end

end Emilua.Supervisor.Mirror
