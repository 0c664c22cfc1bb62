import Emilua.Transfer

/-!
Cycles among the tables that are sent: the loop of `chan_send` refuses exactly
those it would not get out of.
-/
namespace Emilua
open Wire Relation Ancestors

section
variable (env : SenderEnv) (g : Heap)

/-- The values that the container made of table `t` is made of. -/
def SenderEnv.children (t : Nat) : List LuaVal :=
  if 0 < env.objlen t then env.cut g t else (env.kept g (Json.table g t).pairs).map Prod.snd

def SenderEnv.Child (t c : Nat) : Prop := .table c ∈ env.children g t

end

section
variable {env : SenderEnv} {g : Heap} {strict : Bool} {recur : List Nat → Nat → Nat → Except Halt (Value × Nat)}
  {path : List Nat} {r : Halt}

theorem kept_keys_nodup {fs : List (LuaVal × LuaVal)} (hfs : (fs.map Prod.fst).Nodup) : ((env.kept g fs).map Prod.fst).Nodup := by
  induction fs with
  | nil => exact .nil
  | cons f fs ih =>
      obtain ⟨key, w⟩ := f
      rw [List.map_cons, List.nodup_cons] at hfs
      cases key with
      | string k =>
          rw [kept_cons]
          split
          · refine List.nodup_cons.mpr ⟨fun hin => ?_, ih hfs.2⟩
            obtain ⟨⟨k', w'⟩, hmem, rfl⟩ := List.mem_map.mp hin
            exact hfs.1 (List.mem_map.mpr ⟨_, (mem_kept hmem).1, rfl⟩)
          · exact ih hfs.2
      | _ =>
          rw [kept_skip (by simp)]
          exact ih hfs.2

theorem Becomes.of_child {P : LuaVal → Value → Prop} {t : Nat} {v : Value} (hb : Becomes env g P t v) {w : LuaVal}
    (hw : w ∈ env.children g t) : ∃ x, P w x := by
  cases hb with
  | array hlen ha =>
      rw [SenderEnv.children, if_pos hlen] at hw
      clear hlen
      generalize env.cut g t = ws at ha hw
      induction ha with
      | nil => cases hw
      | cons hP _ ih =>
          rcases List.mem_cons.mp hw with rfl | hw
          · exact ⟨_, hP⟩
          · exact ih hw
  | @object m hlen hnodup hkeys hm =>
      rw [SenderEnv.children, if_neg hlen] at hw
      obtain ⟨⟨k, w'⟩, hin, rfl⟩ := List.mem_map.mp hw
      have hlookup := lookup_of_mem (kept_keys_nodup (pairs_nodup _)) hin
      cases hv : m.lookup k with
      | none =>
          rw [(hkeys k).mp hv] at hlookup
          cases hlookup
      | some v => exact ⟨v, hm k w' v hlookup hv⟩

theorem child_error {w : LuaVal} {dups : Nat} (hc : child env g strict recur path dups w = .error (.raised (.json .cycleExists))) :
    env.sendable g w = true ∧ ∃ c, w = .table c ∧ (c ∈ path ∨ recur path dups c = .error (.raised (.json .cycleExists))) := by
  rw [child] at hc
  cases hitem : env.item g w with
  | leaf x =>
      rw [hitem] at hc
      cases hc
  | descriptor fd =>
      simp only [hitem] at hc
      cases hdup : env.dup dups fd with
      | ok newfd =>
          rw [hdup] at hc
          cases hc
      | error errno =>
          rw [hdup] at hc
          cases hc
  | table c =>
      simp only [hitem] at hc
      refine ⟨by rw [SenderEnv.sendable, hitem], c, item_table hitem, ?_⟩
      split at hc
      · rename_i hin
        exact .inl hin
      · exact .inr (map_error hc)
  | unsendable =>
      rw [hitem] at hc
      cases hc
  | cdata =>
      simp only [hitem] at hc
      split at hc <;> cases hc

theorem elements_error {vs : List LuaVal} {a : List Value} {dups : Nat} (h : elements env g strict recur path vs a dups = .error r) :
    ∃ w dups', child env g strict recur path dups' w = .error r ∧ (env.sendable g w = true → w ∈ vs.takeWhile (env.sendable g)) := by
  induction vs generalizing a dups with
  | nil => cases h
  | cons w vs ih =>
      rw [elements] at h
      rcases bind_error h with hw | ⟨⟨x, dups₁⟩, hw, hrest⟩
      · refine ⟨w, dups, hw, fun hsend => ?_⟩
        rw [List.takeWhile_cons, hsend, if_pos rfl]
        exact List.mem_cons_self
      · cases x with
        | none => cases hrest
        | some x =>
            have hsend : env.sendable g w = true := (child_sendable hw).symm
            obtain ⟨w', dups', hw', hin⟩ := ih hrest
            refine ⟨w', dups', hw', fun hsend' => ?_⟩
            rw [List.takeWhile_cons, hsend, if_pos rfl]
            exact List.mem_cons_of_mem _ (hin hsend')

theorem members_error {fs : List (LuaVal × LuaVal)} {m : List (Bytes × Value)} {dups : Nat}
    (h : members env g strict recur path fs m dups = .error r) :
    ∃ w dups', child env g strict recur path dups' w = .error r ∧ (env.sendable g w = true → w ∈ (env.kept g fs).map Prod.snd) := by
  induction fs generalizing m dups with
  | nil => cases h
  | cons f fs ih =>
      obtain ⟨key, w⟩ := f
      cases key with
      | string k =>
          have hmore : ∀ w', (∃ dups', child env g strict recur path dups' w' = .error r) ∧
              (env.sendable g w' = true → w' ∈ (env.kept g fs).map Prod.snd) →
              env.sendable g w' = true → w' ∈ (env.kept g ((.string k, w) :: fs)).map Prod.snd := by
            intro w' hw' hsend
            rw [kept_cons]
            split
            · exact List.mem_cons_of_mem _ (hw'.2 hsend)
            · exact hw'.2 hsend
          rw [members] at h
          rcases bind_error h with hw | ⟨⟨x, dups₁⟩, hw, hrest⟩
          · refine ⟨w, dups, hw, fun hsend => ?_⟩
            rw [kept_cons, hsend, if_pos rfl]
            exact List.mem_cons_self
          · cases x with
            | none =>
                obtain ⟨w', dups', hw', hin⟩ := ih hrest
                exact ⟨w', dups', hw', hmore w' ⟨⟨dups', hw'⟩, hin⟩⟩
            | some x =>
                obtain ⟨w', dups', hw', hin⟩ := ih hrest
                exact ⟨w', dups', hw', hmore w' ⟨⟨dups', hw'⟩, hin⟩⟩
      | _ =>
          rw [members] at h
          · rw [kept_skip (by simp)]
            exact ih h
          · simp

theorem contents_error {dups t : Nat} (h : contents env g strict recur path dups t = .error r) :
    ∃ w dups', child env g strict recur (t :: path) dups' w = .error r ∧ (env.sendable g w = true → w ∈ env.children g t) := by
  rw [contents] at h
  rw [SenderEnv.children]
  split at h
  · rename_i hlen
    rw [if_pos hlen]
    exact elements_error h
  · rename_i hlen
    rw [if_neg hlen]
    exact members_error h

end

section
variable {env : SenderEnv} {g : Heap} {strict : Bool} {path : List Nat} {dups dups' t room : Nat} {v : Value}

theorem toFinset_cons (t : Nat) (path : List Nat) : (t :: path).toFinset = insert t path.toFinset := List.toFinset_cons

/-- What is sent has no path back into itself. -/
theorem message_clear (h : message env g strict room path dups t = .ok (v, dups')) (ht : t ∉ path) :
    ¬ Meets (fun _ => True) (env.Child g) path.toFinset t := by
  have hstep : ∀ {recur : List Nat → Nat → Nat → Except Halt (Value × Nat)}
      (_ : ∀ path dups dups' t v, recur path dups t = .ok (v, dups') → t ∉ path → ¬ Meets (fun _ => True) (env.Child g) path.toFinset t)
      {path : List Nat} {dups dups' t : Nat} {v : Value} (_ : contents env g strict recur path dups t = .ok (v, dups')),
      t ∉ path → ¬ Meets (fun _ => True) (env.Child g) path.toFinset t := by
    intro recur hrec path dups dups' t v hcontents ht hm
    have hb := contents_become (P := fun w x => ∃ dups dups', child env g strict recur (t :: path) dups w = .ok (some x, dups'))
      (fun w x dups dups' hw => ⟨dups, dups', hw⟩) hcontents
    rcases hm.cases with ⟨-, hin⟩ | ⟨c, hc, hmeets⟩
    · exact ht (List.mem_toFinset.mp hin)
    · obtain ⟨x, dups₁, dups₂, hx⟩ := hb.of_child hc
      rcases child_ok hx with ⟨hitem, -⟩ | ⟨fd, newfd, hitem, -⟩ | ⟨c', heq, -, hpath, hr⟩
      · rw [SenderEnv.item] at hitem
        split at hitem <;> cases hitem
      · rw [SenderEnv.item] at hitem
        split at hitem <;> cases hitem
      · obtain rfl := LuaVal.table.inj heq
        rw [← toFinset_cons] at hmeets
        exact hrec (t :: path) dups₁ dups₂ c x hr hpath hmeets
  induction room generalizing path dups dups' t v with
  | zero => exact hstep (fun _ _ _ _ _ hr => by cases hr) h ht
  | succ room ih => exact hstep (fun _ _ _ _ _ hr ht => ih hr ht) h ht

/-- The error for cycles comes with one. -/
theorem message_cycle (h : message env g strict room path dups t = .error (.raised (.json .cycleExists))) :
    Meets (fun _ => True) (env.Child g) path.toFinset t := by
  have hstep : ∀ {recur : List Nat → Nat → Nat → Except Halt (Value × Nat)}
      (_ : ∀ path dups t, recur path dups t = .error (.raised (.json .cycleExists)) → Meets (fun _ => True) (env.Child g) path.toFinset t)
      {path : List Nat} {dups t : Nat} (_ : contents env g strict recur path dups t = .error (.raised (.json .cycleExists))),
      Meets (fun _ => True) (env.Child g) path.toFinset t := by
    intro recur hrec path dups t hcontents
    obtain ⟨w, dups', hw, hin⟩ := contents_error hcontents
    obtain ⟨hsend, c, rfl, hpath | hr⟩ := child_error hw
    · exact .below (hin hsend) (.here trivial (by rw [← toFinset_cons]; exact List.mem_toFinset.mpr hpath))
    · exact .below (hin hsend) (by rw [← toFinset_cons]; exact hrec _ _ _ hr)
  induction room generalizing path dups t with
  | zero => exact hstep (fun _ _ _ hr => by cases hr) h
  | succ room ih => exact hstep (fun _ _ _ hr => ih hr) h

end

/-- The error for cycles is raised only where some table that would be sent is
inside of itself, and a message is built only where none is. A table that is
met twice on different ways is no cycle. -/
theorem serialize_cycles (env : SenderEnv) (g : Graph) (base : List LuaVal) (fuel : Nat) :
    (serialize env fuel ⟨base, g.heap⟩ g.root = some (.error (.json .cycleExists)) →
      ∃ c, ReflTransGen (env.Child g.heap) g.root c ∧ TransGen (env.Child g.heap) c c) ∧
    ∀ L v dups, serialize env fuel ⟨base, g.heap⟩ g.root = some (.ok (L, v, dups)) →
      ∀ c, ReflTransGen (env.Child g.heap) g.root c → ¬ TransGen (env.Child g.heap) c c := by
  refine ⟨fun hrun => ?_, fun L v dups hrun c hc hcycle => ?_⟩
  · have hspec := agrees_error (serialize_agrees hrun)
    rw [specification] at hspec
    split at hspec
    · cases hspec
    · obtain ⟨c, hc, -, hin | hcycle⟩ := message_cycle hspec
      · cases hin
      · exact ⟨c, hc, hcycle⟩
  · have hspec := agrees_ok (serialize_agrees hrun)
    rw [specification] at hspec
    split at hspec
    · cases hspec
    · exact message_clear hspec List.not_mem_nil ⟨c, hc, trivial, .inr hcycle⟩

end Emilua
