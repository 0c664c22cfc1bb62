import Emilua.Deserializer
import Emilua.Ipc.Delivery

/-!
The two decoders against each other. They take the same packets, and deliver
the same value unless a table names a key twice: `std::map::emplace` keeps the
first member under a key, `lua_rawset` the last.
-/
namespace Emilua.Ipc
open Wire

theorem lookup_foldl_emplace (es m : List (Bytes × Leaf)) (k : Bytes) :
    (es.foldl (fun m e => emplace m e.1 e.2) m).lookup k = (m.lookup k).or (es.lookup k) := by
  induction es generalizing m with
  | nil => simp
  | cons e es ih =>
      obtain ⟨k₀, l⟩ := e
      rw [List.foldl_cons, ih, lookup_emplace, lookup_cons_eq]
      by_cases hk : k = k₀ <;> cases m.lookup k <;> simp [hk]

theorem lookup_firstEntries (es : List (Bytes × Leaf)) (k : Bytes) :
    (firstEntries es).lookup k = es.lookup k := by
  rw [firstEntries, lookup_foldl_emplace]
  rfl

theorem nodup_keys_emplace {m : List (Bytes × Leaf)} (h : (m.map Prod.fst).Nodup) (k : Bytes)
    (l : Leaf) : ((emplace m k l).map Prod.fst).Nodup := by
  unfold emplace
  split
  · exact h
  · rename_i hk
    have hnone : m.lookup k = none := Option.not_isSome_iff_eq_none.mp hk
    rw [((insertKey_perm m k l).map Prod.fst).nodup_iff, List.map_cons, List.nodup_cons]
    refine ⟨fun hmem => ?_, h⟩
    obtain ⟨e, he, rfl⟩ := List.mem_map.mp hmem
    simpa using List.lookup_eq_none_iff.mp hnone e he

theorem nodup_keys_firstEntries (es : List (Bytes × Leaf)) :
    ((firstEntries es).map Prod.fst).Nodup := by
  suffices h : ∀ m : List (Bytes × Leaf), (m.map Prod.fst).Nodup →
      ((es.foldl (fun m e => emplace m e.1 e.2) m).map Prod.fst).Nodup from h [] List.nodup_nil
  induction es with
  | nil => exact fun m hm => hm
  | cons e es ih => exact fun m hm => ih _ (nodup_keys_emplace hm e.1 e.2)

theorem tableOf_firstEntries (es : List (Bytes × Leaf)) (k : Bytes) :
    tableOf (firstEntries es) (.string k) = es.lookup k := by
  rw [tableOf, lookup_reverse (nodup_keys_firstEntries es), lookup_firstEntries]

/-- What the receiving fiber gets from a message that waited in the queue. -/
theorem deserializerClosure_queued (h : Heap) (m : Message) :
    (deserializerClosure h m.queued).map (fun x => x.2.view x.1) =
      some (match m with
        | .flat l => .leaf (some l)
        | .table es => .table fun key => (tableOf (firstEntries es) key).map some) := by
  cases m with
  | flat l => exact deserializerClosure_leaf h l
  | table es => exact deserializerClosure_leafObject h (nodup_keys_firstEntries es)

/-- Either both ways of receiving a packet reject it, or both hand the same
value to the receiving fiber, in whatever heaps they build it. -/
def DeliversSame {c : Config} (r : Received c) (h h' : Heap) : Prop :=
  match receiveQueued r, receiveDirect r h with
  | .rejected _, .rejected _ => True
  | .delivered msg _, .delivered (v, hd) _ =>
      (deserializerClosure h' msg).map (fun x => x.2.view x.1) = some (hd.view v)
  | _, _ => False

/-- No table repeats a key with another value first than last. -/
def Message.Unambiguous : Message → Prop
  | .flat _ => True
  | .table es => ∀ k, es.lookup k = es.reverse.lookup k

theorem Message.view_eq_iff (m : Message) (h : Heap) :
    (deserializerClosure h m.queued).map (fun x => x.2.view x.1) = some m.view ↔
      m.Unambiguous := by
  rw [deserializerClosure_queued]
  cases m with
  | flat l => simp [Message.view, Message.Unambiguous]
  | table es =>
      simp only [Message.view, Message.Unambiguous, Option.some.injEq, View.table.injEq]
      constructor
      · intro heq k
        have hk := congrFun heq (.string k)
        rw [tableOf_firstEntries] at hk
        exact Option.map_injective (Option.some_injective _) hk
      · intro hsame
        funext key
        cases key with
        | string k => rw [tableOf_firstEntries, hsame k]; rfl
        | nil | boolean _ | number _ | table _ | userdata _ | function _ | thread _
        | lightuserdata _ | cdata _ => rfl

theorem deliversSame_of_read {c : Config} {r : Received c} {m : Message} (hread : r.read = some m)
    (h h' : Heap) : DeliversSame r h h' ↔ m.Unambiguous := by
  have hq := receiveQueued_spec r
  have hd := receiveDirect_spec r h
  rw [hread] at hq hd
  obtain ⟨_, hq, -⟩ := hq
  obtain ⟨v, hd', _, hd, hview, -⟩ := hd
  simp only [DeliversSame, hq, hd, hview, m.view_eq_iff]

theorem delivers_same_iff {c : Config} (r : Received c) (h h' : Heap) :
    DeliversSame r h h' ↔ ∀ m, r.read = some m → m.Unambiguous := by
  cases hread : r.read with
  | none =>
      have hq := receiveQueued_spec r
      have hd := receiveDirect_spec r h
      rw [hread] at hq hd
      obtain ⟨_, hq, -⟩ := hq
      obtain ⟨_, hd, -⟩ := hd
      simp [DeliversSame, hq, hd]
  | some m => simp only [deliversSame_of_read hread, Option.some.injEq, forall_eq']

/-- `{k = true, k = false}`, as only a peer that writes its own packets sends it. -/
def repeatedKey : Contents := .table [([107], .boolean true), ([107], .boolean false)]

theorem render_repeatedKey_length : (render ⟨20, Config.two_lt_twenty⟩ repeatedKey).length = 164 := by
  simp [render, repeatedKey, Contents.words, Contents.texts, entryTexts, Member.texts]

def repeatedKeyPacket : Received ⟨20, Config.two_lt_twenty⟩ :=
  Received.ofWire _ (render _ repeatedKey)
    (by rw [render_repeatedKey_length]; simp [Config.messageSize, Config.membersSize, Config.strbufSize]) 0 []

theorem repeated_key_delivers_differently :
    ¬ DeliversSame repeatedKeyPacket Heap.empty Heap.empty := by
  have hvalid : repeatedKey.Valid ⟨20, by decide⟩ := by
    refine ⟨by simp, by simp, ?_⟩
    simp [Member.Valid]
  have hlong : repeatedKeyPacket.tooShort = false := by
    simp [Received.tooShort, repeatedKeyPacket, Received.ofWire, render_repeatedKey_length]
  have hread : repeatedKeyPacket.read =
      some (.table [([107], .boolean true), ([107], .boolean false)]) := by
    rw [Received.read, hlong, repeatedKeyPacket, Received.wire_ofWire, parse_render _ _ hvalid]
    rfl
  rw [deliversSame_of_read hread]
  intro h
  have hk := h [107]
  simp at hk

end Emilua.Ipc
