import Emilua.Lib.Ledger
import Emilua.Unix.Descriptors

/-!
Who owns a descriptor. At any time a descriptor is in one handle, in one lock of
a pending send, or has been closed, once. A pending send writes to its handles
through plain references, and nothing keeps a handle that the program has
dropped from being collected meanwhile: what such a send gives back is lost.
-/
namespace Emilua.Unix
open Transition

/-! Writing to several handles. -/

def storeAll : List (Ref × Option Descriptor) → List Handle → List Handle
  | [], handles => handles
  | (ref, fd) :: writes, handles => storeAll writes (store handles ref fd)

theorem takeAll_eq (fds : List Lock) (handles : List Handle) :
    takeAll fds handles = storeAll (fds.map fun lock => (lock.reference, none)) handles := by
  induction fds generalizing handles with
  | nil => rfl
  | cons lock fds ih => exact ih _

theorem giveBack_eq (fds : List Lock) (handles : List Handle) :
    giveBack fds handles =
      storeAll (fds.map fun lock => (lock.reference, some lock.value)) handles := by
  induction fds generalizing handles with
  | nil => rfl
  | cons lock fds ih => exact ih _

section Store
variable {handles : List Handle} {ref : Ref} {fd : Option Descriptor}
  {writes : List (Ref × Option Descriptor)}

theorem store_live {old : Option Descriptor} (h : handles[ref]? = some (.live old)) :
    store handles ref fd = handles.set ref (.live fd) := by
  rw [store, h]

theorem store_dead (h : ∀ old, handles[ref]? ≠ some (.live old)) : store handles ref fd = handles := by
  unfold store
  split
  · rename_i old hold
    exact absurd hold (h old)
  · rfl

theorem store_ne {ref' : Ref} (hne : ref ≠ ref') : (store handles ref fd)[ref']? = handles[ref']? := by
  unfold store
  split
  · exact List.getElem?_set_ne hne
  · rfl

theorem storeAll_other (hno : ref ∉ writes.map Prod.fst) :
    (storeAll writes handles)[ref]? = handles[ref]? := by
  induction writes generalizing handles with
  | nil => rfl
  | cons w writes ih =>
      have hsplit : ref ≠ w.1 ∧ ref ∉ writes.map Prod.fst := by simpa using hno
      rw [storeAll, ih hsplit.2, store_ne (Ne.symm hsplit.1)]

theorem storeAll_get (hnodup : (writes.map Prod.fst).Nodup) (hmem : (ref, fd) ∈ writes)
    {old : Option Descriptor} (h : handles[ref]? = some (.live old)) :
    (storeAll writes handles)[ref]? = some (.live fd) := by
  induction writes generalizing handles old with
  | nil => cases hmem
  | cons w writes ih =>
      rw [List.map_cons, List.nodup_cons] at hnodup
      have hlt : ref < handles.length := (List.getElem?_eq_some_iff.mp h).1
      rw [storeAll]
      rcases List.mem_cons.mp hmem with rfl | hmem
      · rw [storeAll_other hnodup.1, store_live h, List.getElem?_set_self hlt]
      · have hne : w.1 ≠ ref := by
          rintro rfl
          exact hnodup.1 (List.mem_map.mpr ⟨_, hmem, rfl⟩)
        exact ih hnodup.2 hmem (by rwa [store_ne hne])

/-- What the handles hold, write by write. -/
theorem storeAll_count (old : Ref → Option Descriptor) (hnodup : (writes.map Prod.fst).Nodup)
    (hlive : ∀ w ∈ writes, handles[w.1]? = some (.live (old w.1))) (d : Descriptor) :
    ((storeAll writes handles).flatMap Handle.holds).count d +
        (writes.flatMap fun w => (old w.1).toList).count d =
      (handles.flatMap Handle.holds).count d + (writes.flatMap fun w => w.2.toList).count d := by
  induction writes generalizing handles with
  | nil => rfl
  | cons w writes ih =>
      rw [List.map_cons, List.nodup_cons] at hnodup
      have hhead := hlive w List.mem_cons_self
      have hrest : ∀ w' ∈ writes, (store handles w.1 w.2)[w'.1]? = some (.live (old w'.1)) := by
        intro w' hw'
        have hne : w.1 ≠ w'.1 := by
          intro heq
          exact hnodup.1 (heq ▸ List.mem_map_of_mem (f := Prod.fst) hw')
        rw [store_ne hne]
        exact hlive w' (List.mem_cons_of_mem _ hw')
      have hih := ih hnodup.2 hrest
      have hset := Ledger.count_set Handle.holds hhead (.live w.2) d
      rw [store_live hhead] at hih
      have hholds : ∀ fd : Option Descriptor, (Handle.live fd).holds = fd.toList := by
        intro fd
        cases fd <;> rfl
      rw [hholds, hholds] at hset
      rw [storeAll, store_live hhead, List.flatMap_cons, List.flatMap_cons, List.count_append,
        List.count_append]
      omega

end Store

/-! The locks of a send. -/

/-- Each lock has a handle of its own and the descriptor in it. -/
structure Collected (handles : List Handle) (fds : List Lock) : Prop where
  nodup : (fds.map Lock.reference).Nodup
  held : ∀ lock ∈ fds, handles[lock.reference]? = some (.live (some lock.value))

theorem collect_spec {arg : Nat} {handles : List Handle} {fds fds' : List Lock}
    {list : List Element} (inv : Collected handles fds)
    (h : collect arg handles fds list = .ok fds') :
    Collected handles fds' ∧ (∀ lock ∈ fds, lock ∈ fds') ∧
      ∀ ref, .handle ref ∈ list → ∃ lock ∈ fds', lock.reference = ref := by
  induction list generalizing fds with
  | nil =>
      cases h
      exact ⟨inv, fun _ hl => hl, by simp⟩
  | cons element list ih =>
      cases element with
      | value | bare | foreign => cases h
      | handle ref =>
          simp only [collect] at h
          split at h
          · rename_i fd hfd
            split at h
            · rename_i hfound
              obtain ⟨lock, hlock, href⟩ := List.any_eq_true.mp hfound
              obtain ⟨inv', hkept, hall⟩ := ih inv h
              refine ⟨inv', hkept, ?_⟩
              intro ref' hmem
              rcases List.mem_cons.mp hmem with heq | hmem
              · cases heq
                exact ⟨lock, hkept lock hlock, by simpa using href⟩
              · exact hall ref' hmem
            · rename_i hnew
              have hfresh : ref ∉ fds.map Lock.reference := by
                intro hmem
                obtain ⟨lock, hlock, href⟩ := List.mem_map.mp hmem
                exact hnew (List.any_eq_true.mpr ⟨lock, hlock, by simpa using href⟩)
              have inv₁ : Collected handles (fds ++ [⟨ref, fd⟩]) := by
                constructor
                · rw [List.map_append]
                  exact List.nodup_append.mpr ⟨inv.nodup, by simp, by
                    intro a ha b hb
                    obtain rfl : b = ref := by simpa using hb
                    rintro rfl
                    exact hfresh ha⟩
                · intro lock hlock
                  rcases List.mem_append.mp hlock with hlock | hlock
                  · exact inv.held lock hlock
                  · rw [List.mem_singleton.mp hlock]
                    exact hfd
              obtain ⟨inv', hkept, hall⟩ := ih inv₁ h
              refine ⟨inv', fun lock hl => hkept lock (List.mem_append_left _ hl), ?_⟩
              intro ref' hmem
              rcases List.mem_cons.mp hmem with heq | hmem
              · cases heq
                exact ⟨_, hkept ⟨ref, fd⟩ (by simp), rfl⟩
              · exact hall ref' hmem
          · cases h
          · cases h

theorem Collected.nil (handles : List Handle) : Collected handles [] := ⟨by simp, by simp⟩

section Locks
variable {handles : List Handle} {fds : List Lock} {ref : Ref} {d : Descriptor}

theorem references_nodup (f : Lock → Option Descriptor) (h : (fds.map Lock.reference).Nodup) :
    ((fds.map fun lock => (lock.reference, f lock)).map Prod.fst).Nodup := by
  rw [List.map_map]
  exact h

/-- What a handle that is in use holds. -/
def heldAt (handles : List Handle) (ref : Nat) : Option Descriptor :=
  match handles[ref]? with
  | some (.live old) => old
  | _ => none

theorem takeAll_count (inv : Collected handles fds) :
    ((takeAll fds handles).flatMap Handle.holds).count d + (fds.map Lock.value).count d =
      (handles.flatMap Handle.holds).count d := by
  have hcount := @storeAll_count handles _ (heldAt handles) (references_nodup (fun _ => none) inv.nodup) (by
      intro w hw
      obtain ⟨lock, hlock, rfl⟩ := List.mem_map.mp hw
      simp [heldAt, inv.held lock hlock]) d
  have hold : (fds.map fun lock => (lock.reference, (none : Option Descriptor))).flatMap
      (fun w => (heldAt handles w.1).toList) = fds.map Lock.value := by
    rw [List.flatMap_map, ← List.flatMap_singleton' (fds.map Lock.value), List.flatMap_map]
    apply List.flatMap_congr
    intro lock hlock
    simp [heldAt, inv.held lock hlock]
  have hnew : (fds.map fun lock => (lock.reference, (none : Option Descriptor))).flatMap
      (fun w => w.2.toList) = [] := by
    simp
  rw [takeAll_eq]
  simp only [hold, hnew, List.count_nil] at hcount
  exact hcount

theorem giveBack_count (hnodup : (fds.map Lock.reference).Nodup)
    (hempty : ∀ lock ∈ fds, handles[lock.reference]? = some (.live none)) :
    ((giveBack fds handles).flatMap Handle.holds).count d =
      (handles.flatMap Handle.holds).count d + (fds.map Lock.value).count d := by
  have hcount := @storeAll_count handles _ (fun _ => none)
    (references_nodup (fun lock => some lock.value) hnodup) (by
      intro w hw
      obtain ⟨lock, hlock, rfl⟩ := List.mem_map.mp hw
      exact hempty lock hlock) d
  have hnew : (fds.map fun lock => (lock.reference, some lock.value)).flatMap
      (fun w => w.2.toList) = fds.map Lock.value := by
    rw [List.flatMap_map, ← List.flatMap_singleton' (fds.map Lock.value), List.flatMap_map]
    rfl
  have hold : (fds.map fun lock => (lock.reference, some lock.value)).flatMap
      (fun _ => (none : Option Descriptor).toList) = [] :=
    List.flatMap_eq_nil_iff.mpr fun _ _ => rfl
  rw [giveBack_eq]
  rwa [hnew, hold, List.count_nil, Nat.add_zero] at hcount

theorem takeAll_mem (inv : Collected handles fds) {lock : Lock} (hmem : lock ∈ fds) :
    (takeAll fds handles)[lock.reference]? = some (.live none) := by
  rw [takeAll_eq]
  exact storeAll_get (references_nodup (fun _ => none) inv.nodup)
    (List.mem_map.mpr ⟨lock, hmem, rfl⟩) (inv.held lock hmem)

theorem takeAll_other (hno : ref ∉ fds.map Lock.reference) :
    (takeAll fds handles)[ref]? = handles[ref]? := by
  rw [takeAll_eq]
  apply storeAll_other
  rwa [List.map_map]

theorem giveBack_mem (hnodup : (fds.map Lock.reference).Nodup) {lock : Lock} (hmem : lock ∈ fds)
    {old : Option Descriptor} (hlive : handles[lock.reference]? = some (.live old)) :
    (giveBack fds handles)[lock.reference]? = some (.live (some lock.value)) := by
  rw [giveBack_eq]
  exact storeAll_get (references_nodup (fun lock => some lock.value) hnodup)
    (List.mem_map.mpr ⟨lock, hmem, rfl⟩) hlive

theorem giveBack_other (hno : ref ∉ fds.map Lock.reference) :
    (giveBack fds handles)[ref]? = handles[ref]? := by
  rw [giveBack_eq]
  apply storeAll_other
  rwa [List.map_map]

end Locks

/-! The loop that makes handles of a packet's descriptors. -/

theorem fdsPusher_eq {maxfds i : Nat} (hi : i < maxfds) (fds : List Descriptor) :
    fdsPusher maxfds i fds = (fds.take (maxfds - i), fds.drop (maxfds - i)) := by
  induction fds generalizing i with
  | nil => simp [fdsPusher]
  | cons fd fds ih =>
      unfold fdsPusher
      split
      · rename_i hlast
        have hone : maxfds - i = 1 := by omega
        rw [hone]
        rfl
      · have hmore : maxfds - i = maxfds - (i + 1) + 1 := by omega
        rw [ih (by omega), hmore]
        rfl

/-! The state of a VM. -/

/-- The descriptors in handles and in pending sends. -/
def State.owners (s : State) : List Descriptor :=
  s.handles.flatMap Handle.holds ++ s.sends.flatMap fun op => op.fds.map Lock.value

/-- Every descriptor the process has obtained is in one place, or closed once. -/
def OwnedOnce (s : State) : Prop :=
  ∀ d, s.owners.count d + s.closed.count d = if d < s.next then 1 else 0

/-- A handle that is there when its send ends is as it was before the call. -/
def Returned (s : State) : Prop :=
  ∀ e ∈ s.ended, ∀ ref, .handle ref ∈ e.listed → e.after[ref]? ≠ some .collected →
    e.after[ref]? = e.before[ref]?

/-- Of the descriptors of a packet the first ones are in new handles, in their
order and at most as many as asked for, and the others are closed. -/
def Delivered (s : State) : Prop :=
  ∀ p ∈ s.deliveries, ∃ k : Nat, p.handles = (p.arrived.take k).map (fun fd => .live (some fd)) ∧
    (p.handles.length : Int) ≤ p.requested ∧ ∀ fd ∈ p.arrived.drop k, fd ∈ s.closed

/-- A handle that a pending send has emptied: still so, or collected. -/
def Away (handles : List Handle) (ref : Ref) : Prop :=
  handles[ref]? = some (.live none) ∨ handles[ref]? = some .collected

structure SendOp.Recorded (op : SendOp) : Prop where
  before : ∀ lock ∈ op.fds, op.before[lock.reference]? = some (.live (some lock.value))
  listed : ∀ ref, .handle ref ∈ op.listed → ∃ lock ∈ op.fds, lock.reference = ref

structure Custody (s : State) : Prop where
  owned : OwnedOnce s
  away : s.valid = true → ∀ ref ∈ s.sends.flatMap fun op => op.fds.map Lock.reference,
    Away s.handles ref
  apart : (s.sends.flatMap fun op => op.fds.map Lock.reference).Nodup
  recorded : ∀ op ∈ s.sends, op.Recorded
  bounded : ∀ op ∈ s.receives, 0 < op.maxfds ∧ (op.maxfds : Int) ≤ op.requested
  returned : Returned s
  delivered : Delivered s

theorem Custody.initial : Custody State.initial where
  owned := by
    intro d
    simp [State.owners, State.initial]
  away := by simp [State.initial]
  apart := by simp [State.initial]
  recorded := by simp [State.initial]
  bounded := by simp [State.initial]
  returned := by simp [Returned, State.initial]
  delivered := by simp [Delivered, State.initial]

section Away
variable {handles : List Handle} {ref r : Ref}

theorem Away.append (h : Away handles ref) (more : List Handle) : Away (handles ++ more) ref := by
  have happend : ∀ x, handles[ref]? = some x → (handles ++ more)[ref]? = some x := by
    intro x hx
    rw [List.getElem?_append_left (List.getElem?_eq_some_iff.mp hx).1, hx]
  exact h.imp (happend _) (happend _)

theorem Away.ne (h : Away handles ref) {fd : Descriptor} (hr : handles[r]? = some (.live (some fd))) :
    r ≠ ref := by
  rintro rfl
  rcases h with h | h <;> simp [h] at hr

theorem Away.collect (h : Away handles ref) (r : Ref) : Away (handles.set r .collected) ref := by
  by_cases heq : r = ref
  · subst heq
    have hlt : r < handles.length := by
      rcases h with h | h <;> exact (List.getElem?_eq_some_iff.mp h).1
    exact .inr (List.getElem?_set_self hlt)
  · unfold Away
    rwa [List.getElem?_set_ne heq]

end Away

namespace Custody
variable {s : State}

/-- A new handle with a new descriptor. -/
theorem adopt (inv : Custody s) :
    Custody { s with handles := s.handles ++ [.live (some s.next)], next := s.next + 1 } :=
  { inv with
    owned := by
      intro d
      have hd := inv.owned d
      simp only [State.owners, List.count_append, Ledger.count_concat, Handle.holds,
        List.count_singleton, beq_iff_eq] at hd ⊢
      grind
    away := fun hvalid ref hmem => (inv.away hvalid ref hmem).append _ }

theorem close (inv : Custody s) {ref : Ref} {fd : Descriptor}
    (hfd : s.handles[ref]? = some (.live (some fd))) :
    Custody { s with handles := s.handles.set ref .closed, closed := s.closed ++ [fd] } :=
  { inv with
    owned := by
      intro d
      have hd := inv.owned d
      have hset := Ledger.count_set Handle.holds hfd .closed d
      simp only [State.owners, List.count_append, Handle.holds, List.count_nil] at hd hset ⊢
      omega
    away := by
      intro hvalid r hmem
      have haway := inv.away hvalid r hmem
      unfold Away
      rw [List.getElem?_set_ne (haway.ne hfd)]
      exact haway
    delivered := by
      intro p hp
      obtain ⟨k, hhandles, hle, hdropped⟩ := inv.delivered p hp
      exact ⟨k, hhandles, hle, fun fd hfd => List.mem_append_left _ (hdropped fd hfd)⟩ }

theorem gc (inv : Custody s) {ref : Ref} {handle : Handle} (hget : s.handles[ref]? = some handle) :
    Custody { s with
      handles := s.handles.set ref .collected
      closed := s.closed ++ handle.holds } :=
  { inv with
    owned := by
      intro d
      have hd := inv.owned d
      have hset := Ledger.count_set Handle.holds hget .collected d
      have hnone : (Handle.collected.holds).count d = 0 := rfl
      simp only [State.owners, List.count_append] at hd hset ⊢
      omega
    away := fun hvalid r hmem => (inv.away hvalid r hmem).collect ref
    delivered := by
      intro p hp
      obtain ⟨k, hhandles, hle, hdropped⟩ := inv.delivered p hp
      exact ⟨k, hhandles, hle, fun fd hfd => List.mem_append_left _ (hdropped fd hfd)⟩ }

theorem vmClose (inv : Custody s) : Custody (Unix.vmClose s) :=
  { inv with
    owned := by
      intro d
      have hd := inv.owned d
      have hnone : (s.handles.map fun _ => Handle.collected).flatMap Handle.holds = [] := by
        rw [List.flatMap_map]
        exact List.flatMap_eq_nil_iff.mpr fun _ _ => rfl
      change _ = if d < s.next then 1 else 0
      simp only [State.owners, Unix.vmClose, hnone, List.nil_append, List.count_append] at hd ⊢
      omega
    away := by simp [Unix.vmClose]
    delivered := by
      intro p hp
      obtain ⟨k, hhandles, hle, hdropped⟩ := inv.delivered p hp
      exact ⟨k, hhandles, hle, fun fd hfd => List.mem_append_left _ (hdropped fd hfd)⟩ }

theorem sendFds (inv : Custody s) {args : CallArgs} {path : Option Bool} {list : List Element}
    (hvalid : s.valid = true) {s' : State} (h : Unix.sendFds s args path list = .ok s') :
    Custody s' := by
  obtain ⟨fds, hcollect, rfl⟩ : ∃ fds,
      collect (if path = none then 3 else 4) s.handles [] list = .ok fds ∧
        s' = { s with
          handles := takeAll fds s.handles
          sends := s.sends ++ [⟨fds, list, s.handles⟩] } := by
    simp only [Unix.sendFds] at h
    cases hcheck : args.check with
    | error e => simp [hcheck] at h; cases h
    | ok _ =>
        rw [hcheck] at h
        split at h
        · cases h
        · cases hcollect : collect (if path = none then 3 else 4) s.handles [] list with
          | error e => simp [hcollect] at h; cases h
          | ok fds =>
              rw [hcollect] at h
              cases h
              exact ⟨fds, rfl, rfl⟩
  obtain ⟨hfds, -, hlisted⟩ := collect_spec (Collected.nil s.handles) hcollect
  -- no pending send has any of these handles
  have hfree : ∀ ref ∈ s.sends.flatMap (fun op => op.fds.map Lock.reference),
      ref ∉ fds.map Lock.reference := by
    intro ref hmem hnew
    obtain ⟨lock, hlock, rfl⟩ := List.mem_map.mp hnew
    exact (inv.away hvalid _ hmem).ne (hfds.held lock hlock) rfl
  refine { inv with owned := ?_, away := ?_, apart := ?_, recorded := ?_ }
  · intro d
    have hd := inv.owned d
    have htake := takeAll_count (d := d) hfds
    simp only [State.owners, List.count_append, Ledger.count_concat] at hd ⊢
    omega
  · intro _ ref hmem
    rw [List.flatMap_append, List.mem_append] at hmem
    rcases hmem with hold | hnew
    · have haway := inv.away hvalid ref hold
      unfold Away
      rw [takeAll_other (hfree ref hold)]
      exact haway
    · obtain ⟨lock, hlock, rfl⟩ := List.mem_map.mp (by simpa using hnew)
      exact .inl (takeAll_mem hfds hlock)
  · rw [List.flatMap_append, List.flatMap_singleton]
    refine List.nodup_append.mpr ⟨inv.apart, hfds.nodup, ?_⟩
    rintro a ha b hb rfl
    exact hfree a ha hb
  · intro op hop
    rcases List.mem_append.mp hop with hop | hop
    · exact inv.recorded op hop
    · rw [List.mem_singleton.mp hop]
      exact ⟨hfds.held, hlisted⟩

theorem receiveFds (inv : Custody s) {skipEof : Bool} {args : CallArgs} {maxfds : Int} {s' : State}
    (h : Unix.receiveFds skipEof s args maxfds = .ok s') : Custody s' := by
  simp only [Unix.receiveFds] at h
  cases hcheck : args.check with
  | error e => simp [hcheck] at h; cases h
  | ok _ =>
      rw [hcheck] at h
      split at h
      · cases h
      · rename_i hone
        cases h
        refine { inv with bounded := ?_ }
        intro op hop
        rcases List.mem_append.mp hop with hop | hop
        · exact inv.bounded op hop
        · rw [List.mem_singleton.mp hop]
          have hscm : scmMaxFd = 255 := rfl
          dsimp only
          constructor <;> split <;> omega

/-- A send that ends once the VM is gone closes its descriptors itself. -/
theorem sendDropped (inv : Custody s) (hvalid : s.valid = false) {i : Nat} {op : SendOp}
    (hop : s.sends[i]? = some op) :
    Custody { s with
      sends := s.sends.eraseIdx i
      closed := s.closed ++ op.fds.map Lock.value } :=
  { inv with
    owned := by
      intro d
      have hd := inv.owned d
      have herase := Ledger.count_eraseIdx (fun op : SendOp => op.fds.map Lock.value) hop d
      simp only [State.owners, List.count_append] at hd herase ⊢
      omega
    away := by simp [hvalid]
    apart := (Ledger.nodup_eraseIdx _ hop inv.apart).2
    recorded := fun op' hmem => inv.recorded op' (List.mem_of_mem_eraseIdx hmem)
    delivered := by
      intro p hp
      obtain ⟨k, hhandles, hle, hdropped⟩ := inv.delivered p hp
      exact ⟨k, hhandles, hle, fun fd hfd => List.mem_append_left _ (hdropped fd hfd)⟩ }

/-- A send that ends gives back what its handles held, as long as they are there. -/
theorem sendEnded (inv : Custody s) (hvalid : s.valid = true) {i : Nat} {op : SendOp}
    (hop : s.sends[i]? = some op)
    (hthere : ∀ lock ∈ op.fds, s.handles[lock.reference]? ≠ some .collected) :
    Custody { s with
      handles := giveBack op.fds s.handles
      sends := s.sends.eraseIdx i
      ended := s.ended ++ [⟨op.listed, op.before, giveBack op.fds s.handles⟩] } := by
  have hmem : op ∈ s.sends := List.mem_of_getElem? hop
  have hrefs : ∀ lock ∈ op.fds, lock.reference ∈ s.sends.flatMap fun op =>
      op.fds.map Lock.reference := by
    intro lock hlock
    exact List.mem_flatMap.mpr ⟨op, hmem, List.mem_map_of_mem hlock⟩
  have hempty : ∀ lock ∈ op.fds, s.handles[lock.reference]? = some (.live none) := by
    intro lock hlock
    rcases inv.away hvalid _ (hrefs lock hlock) with hnone | hgone
    · exact hnone
    · exact absurd hgone (hthere lock hlock)
  obtain ⟨hnodup, hapart⟩ := Ledger.nodup_eraseIdx _ hop inv.apart
  refine { inv with owned := ?_, away := ?_, apart := hapart, recorded := ?_, returned := ?_ }
  · intro d
    have hd := inv.owned d
    have herase := Ledger.count_eraseIdx (fun op : SendOp => op.fds.map Lock.value) hop d
    have hgive := giveBack_count (d := d) hnodup hempty
    simp only [State.owners, List.count_append] at hd herase ⊢
    omega
  · intro _ ref href
    have hother : ref ∉ op.fds.map Lock.reference := by
      intro hown
      exact Ledger.disjoint_eraseIdx (fun op : SendOp => op.fds.map Lock.reference) hop
        inv.apart hown href
    have hsub : (s.sends.eraseIdx i).flatMap (fun op => op.fds.map Lock.reference) ⊆
        s.sends.flatMap fun op => op.fds.map Lock.reference := by
      intro r hr
      obtain ⟨op', hop', hr'⟩ := List.mem_flatMap.mp hr
      exact List.mem_flatMap.mpr ⟨op', List.mem_of_mem_eraseIdx hop', hr'⟩
    unfold Away
    rw [giveBack_other hother]
    exact inv.away hvalid ref (hsub href)
  · exact fun op' hmem' => inv.recorded op' (List.mem_of_mem_eraseIdx hmem')
  · intro e he
    rcases List.mem_append.mp he with he | he
    · exact inv.returned e he
    · rw [List.mem_singleton.mp he]
      intro ref hlisted _
      obtain ⟨lock, hlock, rfl⟩ := (inv.recorded op hmem).listed ref hlisted
      rw [giveBack_mem hnodup hlock (hempty lock hlock)]
      exact ((inv.recorded op hmem).before lock hlock).symm

theorem receiveEnded (inv : Custody s) (i : Nat) :
    Custody { s with receives := s.receives.eraseIdx i } :=
  { inv with bounded := fun op hop => inv.bounded op (List.mem_of_mem_eraseIdx hop) }

/-- A packet that makes handles of its first `k` descriptors and closes the rest. -/
theorem arrive (inv : Custody s) {fds : List Descriptor}
    (hnew : fds = List.range' s.next fds.length) {requested : Int} {k : Nat}
    (hk : ((fds.take k).length : Int) ≤ requested) :
    Custody { s with
      handles := s.handles ++ (fds.take k).map fun fd => .live (some fd)
      closed := s.closed ++ fds.drop k
      next := s.next + fds.length
      deliveries := s.deliveries ++
        [⟨requested, fds, (fds.take k).map fun fd => .live (some fd), fds.drop k⟩] } :=
  { inv with
    owned := by
      intro d
      have hd := inv.owned d
      have hholds : ((fds.take k).map fun fd => Handle.live (some fd)).flatMap Handle.holds =
          fds.take k := by
        rw [List.flatMap_map]
        exact List.flatMap_singleton' _
      have hsplit : (fds.take k).count d + (fds.drop k).count d = fds.count d := by
        rw [← List.count_append, List.take_append_drop]
      have hcount : fds.count d = if s.next ≤ d ∧ d < s.next + fds.length then 1 else 0 := by
        have hnodup : fds.Nodup := by
          rw [hnew]
          exact List.nodup_range'
        have hmem : d ∈ fds ↔ s.next ≤ d ∧ d < s.next + fds.length := by
          conv_lhs => rw [hnew]
          exact List.mem_range'_1
        by_cases hd : d ∈ fds
        · rw [List.count_eq_one_of_mem hnodup hd, if_pos (hmem.mp hd)]
        · rw [List.count_eq_zero.mpr hd, if_neg (fun h => hd (hmem.mpr h))]
      simp only [State.owners, List.flatMap_append, hholds, List.count_append] at hd ⊢
      grind
    away := fun hvalid ref hmem => (inv.away hvalid ref hmem).append _
    delivered := by
      intro p hp
      rcases List.mem_append.mp hp with hp | hp
      · obtain ⟨k', hhandles, hle, hdropped⟩ := inv.delivered p hp
        exact ⟨k', hhandles, hle, fun fd hfd => List.mem_append_left _ (hdropped fd hfd)⟩
      · rw [List.mem_singleton.mp hp]
        refine ⟨k, rfl, by simpa using hk, ?_⟩
        exact fun fd hfd => List.mem_append_right _ hfd }

end Custody

/-- No send ends, while the VM lives, after one of its handles was collected. -/
def keepsHandles (s : State) : Action → Bool
  | .sendWake _ .again => true
  | .sendWake i _ =>
      match s.sends[i]? with
      | some op =>
          s.valid == false || op.fds.all fun lock => s.handles[lock.reference]? != some .collected
      | none => true
  | _ => true

theorem call_ok {s s' : State} {r : Except CallError State} (h : s.call r = .ok s') :
    s.valid = true ∧ r = .ok s' := by
  unfold State.call at h
  split at h
  · cases h
  · rename_i hvalid
    refine ⟨by simpa using hvalid, ?_⟩
    cases r with
    | error e => cases h
    | ok a =>
        cases h
        rfl

theorem sendOnWait_custody {s : State} (inv : Custody s) {i : Nat} {op : SendOp} {wake : SendWake}
    (hop : s.sends[i]? = some op) (hkeeps : keepsHandles s (.sendWake i wake) = true) :
    Custody (sendOnWait s i op wake) := by
  unfold sendOnWait
  split
  · rename_i hvalid
    exact inv.sendDropped hvalid hop
  · rename_i hvalid
    cases wake with
    | again => exact inv
    | aborted _ | failed _ | sent =>
        apply inv.sendEnded (by simpa using hvalid) hop
        simpa [keepsHandles, hop, hvalid] using hkeeps

theorem receiveOnWait_custody {s : State} (inv : Custody s) {i : Nat} {op : ReceiveOp}
    {wake : ReceiveWake} (hop : s.receives[i]? = some op) (hnew : wake.possible s.next = true) :
    Custody (receiveOnWait s i op wake) := by
  obtain ⟨hpos, hle⟩ := inv.bounded op (List.mem_of_getElem? hop)
  unfold receiveOnWait
  split
  · exact inv.receiveEnded i
  · cases wake with
    | again => exact inv
    | aborted _ | failed _ => exact inv.receiveEnded i
    | message nread controls =>
        have hfds : received controls = List.range' s.next (received controls).length := by
          simpa [ReceiveWake.possible] using hnew
        dsimp only
        split
        · have harrive := @Custody.arrive _ (inv.receiveEnded i) _ hfds op.requested 0
            (by simp; omega)
          simpa using harrive
        · rw [fdsPusher_eq hpos]
          apply (inv.receiveEnded i).arrive hfds
          rw [List.length_take]
          omega

/-- One step keeps every descriptor in one place. -/
theorem exec_custody {s s' : State} {a : Action} (inv : Custody s)
    (hkeeps : keepsHandles s a = true) (h : exec s a = .ok s') : Custody s' := by
  cases a with
  | adopt =>
      obtain ⟨-, heq⟩ := call_ok h
      cases heq
      exact inv.adopt
  | sendWithFds args list | sendToWithFds args path list =>
      obtain ⟨hvalid, heq⟩ := call_ok h
      exact inv.sendFds hvalid heq
  | sendWake i wake =>
      simp only [exec] at h
      split at h
      · rename_i op hop
        cases h
        exact sendOnWait_custody inv hop hkeeps
      · cases h
  | datagramReceiveWithFds args maxfds | streamReceiveWithFds args maxfds
  | seqpacketReceiveWithFds args maxfds =>
      obtain ⟨-, heq⟩ := call_ok h
      exact inv.receiveFds heq
  | receiveWake i wake =>
      simp only [exec] at h
      split at h
      · rename_i op hop
        split at h
        · rename_i hnew
          cases h
          exact receiveOnWait_custody inv hop hnew
        · cases h
      · cases h
  | close ref =>
      obtain ⟨-, heq⟩ := call_ok h
      simp only [fileDescriptorClose] at heq
      split at heq
      · rename_i fd hfd
        cases heq
        exact inv.close hfd
      · cases heq
      · cases heq
  | dup ref refusal =>
      obtain ⟨-, heq⟩ := call_ok h
      simp only [fileDescriptorDup] at heq
      split at heq
      · split at heq
        · cases heq
        · cases heq
          exact inv.adopt
      · cases heq
      · cases heq
  | gc ref =>
      simp only [exec] at h
      split at h
      · cases h
      · simp only [fileDescriptorGc] at h
        split at h
        · cases h
        · cases h
        · rename_i handle _ hget
          cases h
          exact inv.gc hget
  | vmClose =>
      simp only [exec] at h
      split at h
      · cases h
      · cases h
        exact inv.vmClose

/-- The runs in which no send outlives one of its handles. -/
abbrev Reached (s : State) : Prop :=
  Reachable (fun s => s = .initial) (restrict (fun s a => keepsHandles s a = true) Step) s

theorem reached_custody {s : State} (h : Reached s) : Custody s :=
  h.invariant (fun _ heq => heq ▸ Custody.initial)
    fun _ _ _ inv hstep => exec_custody inv hstep.1 hstep.2

/-- The arguments of a call that passes the checks before the list. -/
def CallArgs.good : CallArgs := ⟨true, true, true⟩

/-- A list with a repetition, and a packet with three descriptors for a receive
that asked for two. -/
def repeatedAndShort : List Action :=
  [.adopt, .adopt, .sendWithFds .good [.handle 0, .handle 1, .handle 0], .sendWake 0 .again,
    .datagramReceiveWithFds .good 2,
    .receiveWake 0 (.message 1 [.other, .rights [some 2, none, some 3, some 4]]),
    .sendWake 0 (.aborted 125), .close 0]

end Emilua.Unix
