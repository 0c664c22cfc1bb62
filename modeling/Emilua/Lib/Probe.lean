import Mathlib.Data.List.Basic

/-!
Candidates that are looked for in an order: on a disk, where a lookup may fail,
or first all of them in a cache and only then on the disk.
-/
namespace Probe

variable {α ε : Type} (cached : α → Bool) (disk : α → Except ε Bool)

/-- The first candidate on the disk. -/
def onDisk : List α → Except ε (Option α)
  | [] => .ok none
  | c :: cs =>
      match disk c with
      | .error e => .error e
      | .ok true => .ok (some c)
      | .ok false => onDisk cs

def probe (cs : List α) : Except ε (Option α) :=
  match cs.find? cached with
  | some c => .ok (some c)
  | none => onDisk disk cs

/-- A cached candidate is found, though one before it is on the disk or cannot be
looked up there. -/
def Misled : List α → Prop
  | [] => False
  | c :: cs => cached c = false ∧ ((disk c ≠ .ok false ∧ ∃ d ∈ cs, cached d = true) ∨ Misled cs)

/-- What is cached is on the disk. -/
def Backed (cs : List α) : Prop := ∀ c ∈ cs, cached c = true → disk c = .ok true

variable {cached disk} {c : α} {cs : List α}

theorem onDisk_mem (h : onDisk disk cs = .ok (some c)) : c ∈ cs := by
  induction cs with
  | nil => cases h
  | cons d cs ih =>
      rw [onDisk] at h
      cases hd : disk d with
      | error e =>
          rw [hd] at h
          cases h
      | ok found =>
          rw [hd] at h
          cases found with
          | true =>
              cases h
              exact List.mem_cons_self
          | false => exact List.mem_cons_of_mem d (ih h)

theorem probe_mem (h : probe cached disk cs = .ok (some c)) : c ∈ cs := by
  rw [probe] at h
  cases hfind : cs.find? cached with
  | some d =>
      rw [hfind] at h
      cases h
      exact List.mem_of_find?_eq_some hfind
  | none =>
      rw [hfind] at h
      exact onDisk_mem h

theorem Misled.exists_cached (h : Misled cached disk cs) : ∃ d ∈ cs, cached d = true := by
  induction cs with
  | nil => exact h.elim
  | cons c cs ih =>
      obtain ⟨d, hd, hcached⟩ := h.2.elim (·.2) ih
      exact ⟨d, List.mem_cons_of_mem c hd, hcached⟩

theorem probe_nothing (h : ∀ c ∈ cs, cached c = false) : probe cached disk cs = onDisk disk cs := by
  rw [probe, List.find?_eq_none.mpr fun c hc => by rw [h c hc]; exact Bool.false_ne_true]

theorem probe_cached (h : cached c = true) : probe cached disk (c :: cs) = .ok (some c) := by
  rw [probe, List.find?_cons_of_pos h]

/-- Past a candidate that is not cached, a cached one is found if there is one. -/
theorem probe_skip (h : cached c = false) (hsome : ∃ d ∈ cs, cached d = true) :
    probe cached disk (c :: cs) = probe cached disk cs := by
  rw [probe, List.find?_cons_of_neg (by rw [h]; exact Bool.false_ne_true), probe]
  cases hfind : cs.find? cached with
  | some d => rfl
  | none =>
      obtain ⟨d, hd, hcached⟩ := hsome
      exact absurd hcached (List.find?_eq_none.mp hfind d hd)

/-- Another candidate is not found past one that the disk stops at. -/
theorem onDisk_cons_ne {d : α} (hcd : c ≠ d) (h : disk c ≠ .ok false ∨ onDisk disk cs ≠ .ok (some d)) :
    onDisk disk (c :: cs) ≠ .ok (some d) := by
  rw [onDisk]
  cases hc : disk c with
  | error e => nofun
  | ok found =>
      cases found with
      | true => exact fun heq => hcd (Option.some.inj (Except.ok.inj heq))
      | false => exact h.resolve_left (not_not.mpr hc)

/-- A misled probe finds something cached, which the disk alone does not give. -/
theorem Misled.differs (h : Misled cached disk cs) :
    ∃ d, cached d = true ∧ probe cached disk cs = .ok (some d) ∧ onDisk disk cs ≠ .ok (some d) := by
  induction cs with
  | nil => exact h.elim
  | cons c cs ih =>
      have hother : ∀ d, cached d = true → c ≠ d := by
        rintro d hd rfl
        exact Bool.false_ne_true (h.1.symm.trans hd)
      rw [probe_skip h.1 (h.2.elim (·.2) Misled.exists_cached)]
      rcases h.2 with ⟨hdisk, d, hd, hcached⟩ | hrest
      · rw [probe]
        cases hfind : cs.find? cached with
        | none => exact absurd hcached (List.find?_eq_none.mp hfind d hd)
        | some d' =>
            have hcached' := List.find?_some hfind
            exact ⟨d', hcached', rfl, onDisk_cons_ne (hother d' hcached') (.inl hdisk)⟩
      · obtain ⟨d, hcached, hprobe, hne⟩ := ih hrest
        exact ⟨d, hcached, hprobe, onDisk_cons_ne (hother d hcached) (.inr hne)⟩

theorem probe_onDisk (hb : Backed cached disk cs) (h : ¬ Misled cached disk cs) :
    probe cached disk cs = onDisk disk cs := by
  induction cs with
  | nil => rfl
  | cons c cs ih =>
      cases hc : cached c with
      | true => rw [probe_cached hc, onDisk, hb c List.mem_cons_self hc]
      | false =>
          by_cases hsome : ∃ d ∈ cs, cached d = true
          · have hdisk : disk c = .ok false := by
              by_contra hdisk
              exact h ⟨hc, .inl ⟨hdisk, hsome⟩⟩
            rw [probe_skip hc hsome, onDisk, hdisk]
            exact ih (fun d hd => hb d (List.mem_cons_of_mem c hd)) fun hrest => h ⟨hc, .inr hrest⟩
          · apply probe_nothing
            intro d hd
            rcases List.mem_cons.mp hd with rfl | hd
            · exact hc
            · exact Bool.eq_false_iff.mpr fun hcached => hsome ⟨d, hd, hcached⟩

/-- The cache makes no difference exactly if the probe is not misled. -/
theorem probe_iff (hb : Backed cached disk cs) :
    probe cached disk cs = onDisk disk cs ↔ ¬ Misled cached disk cs := by
  refine ⟨fun heq hm => ?_, probe_onDisk hb⟩
  obtain ⟨d, -, hprobe, hne⟩ := hm.differs
  exact hne (heq ▸ hprobe)

end Probe
