import TwilightDispatch.Metrics
import TwilightDispatch.Sessions

/-!
# Names of keys

What can be read off a key. A stored key splits into the kind of what is stored and its identifying
numbers, so two objects are stored under one key only if these are the same, and what `del_all`
parses out of a key that it finds in an index or in the expiry hash is right. Keys of values, names
of index sets and the name of the expiry hash are different names.
-/

namespace TwilightDispatch

open Atomic Redis

variable {T V : Type} {J : Json T V} {s : Store T} {k S : String} {e e' : Entity}

/-! ## Stored keys -/

/-- The numbers that identify an entity among those of its kind. Those of a channel do not name its
guild. -/
def Entity.ids : Entity → List ℕ
  | botUser => []
  | guild g => [g.value]
  | channel _ c => [c.value]
  | message c m => [c.value, m.value]
  | role g r => [g.value, r.value]
  | emoji g e => [g.value, e.value]
  | member g u => [g.value, u.value]
  | presence g u => [g.value, u.value]
  | voice g u => [g.value, u.value]

/-- A stored key splits into the kind and the numbers. -/
theorem split_stored (e : Entity) : split e.stored = e.kind :: e.ids.map toString := by
  cases e with
  | channel g c => exact split_privateChannelKey c
  | _ => simp [Entity.stored, Entity.key, Entity.kind, Entity.ids, Id.toString_eq]

/-- The kind and the numbers in a key. -/
def readKey (key : String) : Option (String × List ℕ) :=
  match split key with
  | [] => none
  | kind :: ids => (ids.mapM String.toNat?).map (kind, ·)

theorem mapM_toNat?_toString (ids : List ℕ) : (ids.map toString).mapM String.toNat? = some ids := by
  induction ids with
  | nil => rfl
  | cons id ids ih =>
    rw [List.map_cons, List.mapM_cons, ih]
    have hid : (toString id).toNat? = some id := Nat.toNat?_repr id
    rw [hid]
    rfl

theorem readKey_stored (e : Entity) : readKey e.stored = some (e.kind, e.ids) := by
  unfold readKey
  rw [split_stored]
  simp only
  rw [mapM_toNat?_toString]
  rfl

theorem Entity.eq_of_ids (hkind : e.kind = e'.kind) (hids : e.ids = e'.ids) :
    e.stored = e'.stored := by
  cases e <;> cases e' <;> simp only [Entity.kind] at hkind <;>
    first
    | exact absurd hkind (by decide)
    | rfl
    | simp only [Entity.ids, List.cons.injEq, and_true] at hids
      simp [Entity.stored, Entity.key, privateChannelKey, Id.ext hids]
    | simp only [Entity.ids, List.cons.injEq, and_true] at hids
      simp [Entity.stored, Entity.key, Id.ext hids.1, Id.ext hids.2]

/-- Two entities are stored under one key if they have the same kind and the same numbers, and only
then. -/
theorem stored_eq_iff : e.stored = e'.stored ↔ e.kind = e'.kind ∧ e.ids = e'.ids := by
  constructor
  · intro h
    have hread := readKey_stored e
    rw [h, readKey_stored] at hread
    obtain ⟨hkind, hids⟩ := Prod.mk.inj (Option.some.inj hread)
    exact ⟨hkind.symm, hids.symm⟩
  · rintro ⟨hkind, hids⟩
    exact Entity.eq_of_ids hkind hids

/-- What the cache reads off the key of an entity that it finds in an index or in the expiry hash:
the kind, by which the emojis of a guild are told from what else its index lists, the key to delete,
and the indexes to remove it from. -/
structure ReadsAs (key : String) (e : Entity) : Prop where
  read : readKey key = some (e.kind, e.ids)
  emoji : (split key).headD "" = EMOJI_KEY ↔ ∃ g id, e = .emoji g id
  newKey : newKey key = key
  members : delMembers key = e.indexes.map (·, key)

theorem readsAs_stored (e : Entity) : ReadsAs e.stored e where
  read := readKey_stored e
  emoji := by
    change kindOf e.stored = EMOJI_KEY ↔ _
    rw [kindOf_stored]
    cases e with
    | emoji g id => exact ⟨fun _ => ⟨g, id, rfl⟩, fun _ => rfl⟩
    | _ =>
      refine ⟨fun h => absurd h (by simp [Entity.kind, EMOJI_KEY, BOT_USER_KEY, GUILD_KEY,
        CHANNEL_KEY, MESSAGE_KEY, ROLE_KEY, MEMBER_KEY, PRESENCE_KEY, VOICE_KEY]), ?_⟩
      rintro ⟨g, id, h⟩
      cases h
  newKey := newKey_stored e
  members := by rw [delMembers_eq, setMembers_stored]

/-! ## Keys of values -/

/-- A stored key is a key that the code builds for an entity. -/
theorem exists_key_eq_stored (e : Entity) : ∃ e' : Entity, e.stored = e'.key := by
  by_cases hkind : e.kind = CHANNEL_KEY
  · obtain ⟨g, c, rfl⟩ := Entity.eq_channel_of_kind hkind
    exact ⟨.channel none c, rfl⟩
  · exact ⟨e, (Entity.key_eq_stored hkind).symm⟩

/-- The key of a value: one that the code builds for an entity, or a key of a process. A stored key
is one of the former, because channels have keys without a guild. -/
def StringName (k : String) : Prop := (∃ e : Entity, k = e.key) ∨ k ∈ gatewayKeys

theorem StringName.key (e : Entity) : StringName e.key := .inl ⟨e, rfl⟩

theorem StringName.stored (e : Entity) : StringName e.stored := by
  obtain ⟨e', he⟩ := exists_key_eq_stored e
  exact he ▸ .key e'

/-- A key that is built for an entity ends in a number, unless it is that of the bot's user. -/
theorem Entity.key_eq_append (e : Entity) (h : e ≠ .botUser) :
    ∃ (start : String) (m : Marker) (id : Id m), e.key = start ++ toString id := by
  cases e with
  | botUser => exact absurd rfl h
  | guild g => exact ⟨_, _, g, rfl⟩
  | channel g c => cases g <;> exact ⟨_, _, c, rfl⟩
  | message c m => exact ⟨_, _, m, rfl⟩
  | role g r => exact ⟨_, _, r, rfl⟩
  | emoji g e => exact ⟨_, _, e, rfl⟩
  | member g u => exact ⟨_, _, u, rfl⟩
  | presence g u => exact ⟨_, _, u, rfl⟩
  | voice g u => exact ⟨_, _, u, rfl⟩

/-- The last two characters of a name, the last one first. -/
def ending (key : String) : List Char := key.toList.reverse.take 2

theorem ending_kindKeys (kind : String) : ending (kindKeys kind) = ['s', 'y'] := by
  simp [ending, kindKeys, KEYS_SUFFIX]

/-- The name of no index of a kind ends in a number. -/
theorem append_toString_ne_kindKeys {m : Marker} (start : String) (id : Id m) (kind : String) :
    start ++ toString id ≠ kindKeys kind := by
  intro h
  have hlast := congrArg (fun key => key.toList.getLast?) h
  have hdigits : (start ++ toString id).toList.getLast? = (toString id).toList.getLast? := by
    rw [String.toList_append, List.getLast?_append_of_ne_nil]
    rw [Id.toString_eq, Nat.toList_repr]
    exact Nat.toDigits_ne_nil
  have hs : (kindKeys kind).toList.getLast? = some 's' := by
    simp [kindKeys, KEYS_SUFFIX]
  simp only [hdigits, hs] at hlast
  have hmem : 's' ∈ (toString id).toList := List.mem_of_getLast? hlast
  rw [Id.toString_eq, Nat.toList_repr] at hmem
  exact absurd (Nat.isDigit_of_mem_toDigits (by omega) (by omega) hmem) (by decide)

theorem StringName.ne_kindKeys (h : StringName k) (kind : String) : k ≠ kindKeys kind := by
  rcases h with ⟨e, rfl⟩ | h
  · by_cases he : e = .botUser
    · subst he
      intro heq
      have hend := ending_kindKeys kind
      rw [← heq] at hend
      exact absurd hend (by decide)
    · obtain ⟨start, m, id, heq⟩ := e.key_eq_append he
      rw [heq]
      exact append_toString_ne_kindKeys start id kind
  · intro heq
    have hend := ending_kindKeys kind
    rw [← heq] at hend
    have hnot : ∀ key ∈ gatewayKeys, ending key ≠ ['s', 'y'] := by decide
    exact hnot k h hend

/-- The first part of a name that consists of a first part without colons and something else. -/
theorem kindOf_append_colon {a : String} (ha : ':' ∉ a.toList) (b : String) :
    kindOf (a ++ ":" ++ b) = a := by
  unfold kindOf
  rw [split_append_colon ha]
  rfl

theorem Entity.kind_mem (e : Entity) : e.kind ∈ BOT_USER_KEY :: KINDS := by
  cases e <;> simp [Entity.kind, KINDS]

theorem StringName.ne_append_colon (h : StringName k) {a : String} (ha : ':' ∉ a.toList)
    (hkind : ∀ kind ∈ BOT_USER_KEY :: KINDS, kind ≠ a) (b : String) : k ≠ a ++ ":" ++ b := by
  rcases h with ⟨e, rfl⟩ | h
  · intro heq
    refine hkind e.kind e.kind_mem ?_
    rw [← kindOf_key, heq, kindOf_append_colon ha]
  · rintro rfl
    exact colon_notMem_of_gateway h (by simp)

theorem StringName.ne_guildKeys (h : StringName k) (g : String) : k ≠ guildKeys g :=
  h.ne_append_colon (by decide) (by decide) g

theorem StringName.ne_channelKeys (h : StringName k) (c : String) : k ≠ channelKeys c :=
  h.ne_append_colon (by decide) (by decide) c

theorem StringName.ne_expiryKeys (h : StringName k) : k ≠ EXPIRY_KEYS := h.ne_kindKeys "expiry"

/-! ## Names of indexes -/

/-- The name of an index: of a kind, of a guild, or of a channel. -/
def SetName (S : String) : Prop :=
  (∃ kind ∈ KINDS, S = kindKeys kind) ∨ (∃ g : Id .guild, S = guildKeys (toString g)) ∨
    ∃ c : Id .channel, S = channelKeys (toString c)

theorem StringName.ne_setName (h : StringName k) (hS : SetName S) : k ≠ S := by
  rcases hS with ⟨kind, -, rfl⟩ | ⟨g, rfl⟩ | ⟨c, rfl⟩
  · exact h.ne_kindKeys kind
  · exact h.ne_guildKeys _
  · exact h.ne_channelKeys _

theorem SetName.ne_expiryKeys (h : SetName S) : S ≠ EXPIRY_KEYS := by
  have hcolon : ':' ∉ EXPIRY_KEYS.toList := by decide
  rcases h with ⟨kind, hkind, rfl⟩ | ⟨g, rfl⟩ | ⟨c, rfl⟩
  · revert kind
    decide
  · exact fun h => hcolon (h ▸ colon_mem_guildKeys _)
  · exact fun h => hcolon (h ▸ colon_mem_channelKeys _)

theorem setName_of_mem_indexes (h : S ∈ e.indexes) : SetName S := by
  cases e with
  | botUser => cases h
  | guild g => exact .inl ⟨GUILD_KEY, by decide, List.mem_singleton.mp h⟩
  | channel g c => exact .inl ⟨CHANNEL_KEY, by decide, List.mem_singleton.mp h⟩
  | message c m =>
    rcases List.mem_cons.mp h with rfl | h
    · exact .inl ⟨MESSAGE_KEY, by decide, rfl⟩
    · exact .inr (.inr ⟨c, List.mem_singleton.mp h⟩)
  | role g | emoji g | member g | presence g | voice g =>
    rcases List.mem_cons.mp h with rfl | h
    · exact .inl ⟨_, by decide, rfl⟩
    · exact .inr (.inl ⟨g, List.mem_singleton.mp h⟩)

/-- An entity is entered in indexes only. -/
theorem setName_of_mem_setMembers (h : (S, k) ∈ setMembers e.key) : SetName S := by
  by_cases hkind : e.kind = CHANNEL_KEY
  · obtain ⟨g, c, rfl⟩ := Entity.eq_channel_of_kind hkind
    cases g with
    | none =>
      rw [show Entity.key (.channel none c) = Entity.stored (.channel none c) from rfl,
        setMembers_stored, List.mem_map] at h
      obtain ⟨S', hS', heq⟩ := h
      exact (Prod.mk.inj heq).1 ▸ setName_of_mem_indexes hS'
    | some g =>
      rw [show Entity.key (.channel (some g) c) = guildChannelKey g c from rfl,
        setMembers_guildChannelKey] at h
      rcases List.mem_cons.mp h with h | h
      · exact .inl ⟨CHANNEL_KEY, by decide, (Prod.mk.inj h).1⟩
      · exact .inr (.inl ⟨g, (Prod.mk.inj (List.mem_singleton.mp h)).1⟩)
  · rw [Entity.key_eq_stored hkind, setMembers_stored, List.mem_map] at h
    obtain ⟨S', hS', heq⟩ := h
    exact (Prod.mk.inj heq).1 ▸ setName_of_mem_indexes hS'

end TwilightDispatch
