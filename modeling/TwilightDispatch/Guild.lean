import TwilightDispatch.Index

/-!
# Guilds and their indexes

The index of a guild lists what belongs to the guild, under the assumption that every channel
occurs with one guild only (`home`). Everything cached that belongs to a guild is listed in its
index, and only such keys are, in every state a run reaches. What the index lists of channels need
not be cached any more: a guild is cleared through the keys its index lists, and the stored key of
a channel does not name the guild, so `del_all` does not take the channel off the index.

`guildIndex_exact` says for which runs the index is exact, `clearGuild_complete` what the clearing
of a guild leaves.
-/

namespace TwilightDispatch

open Atomic Redis

variable {T V : Type} {J : Json T V} {cfg : Config} {botId : Id .user} {s : Store T} {k : String}

/-! ## What belongs to a guild -/

/-- Every channel occurs with its home only. -/
def HomeOnly (home : Id .channel → Option (Id .guild)) : Entity → Prop
  | .channel g c => home c = g
  | _ => True

/-- The key `k` is that of a role, an emoji, a member, a presence, a voice state or a channel of
the guild. -/
def Belongs (home : Id .channel → Option (Id .guild)) (g : Id .guild) (k : String) : Prop :=
  ∃ e : Entity, HomeOnly home e ∧ e.guildOf = some g ∧ e.stored = k

variable {home : Id .channel → Option (Id .guild)} {g g' : Id .guild}

theorem Entity.eq_channel_of_kind {e : Entity} (h : e.kind = CHANNEL_KEY) :
    ∃ g c, e = channel g c := by
  cases e with
  | channel g c => exact ⟨g, c, rfl⟩
  | _ =>
    simp only [Entity.kind] at h
    exact absurd h (by decide)

@[simp] theorem kindOf_privateChannelKey (c : Id .channel) :
    kindOf (privateChannelKey c) = CHANNEL_KEY := kindOf_stored (.channel none c)

theorem privateChannelKey_inj {c c' : Id .channel} :
    privateChannelKey c = privateChannelKey c' ↔ c = c' := by
  refine ⟨fun h => ?_, congrArg _⟩
  have hsplit : split (privateChannelKey c) = split (privateChannelKey c') := by rw [h]
  simpa using hsplit

/-- A channel belongs to its home. -/
theorem belongs_channel {c : Id .channel} : Belongs home g (privateChannelKey c) ↔
    home c = some g := by
  constructor
  · rintro ⟨e, hok, hg, hk⟩
    obtain ⟨g', c', rfl⟩ := Entity.eq_channel_of_kind (e := e) (by rw [← kindOf_stored, hk]; simp)
    obtain rfl := privateChannelKey_inj.mp hk
    exact hok.trans hg
  · intro h
    exact ⟨.channel (some g) c, h, rfl, rfl⟩

/-- Nothing belongs to two guilds. -/
theorem Belongs.unique (h : Belongs home g k) (h' : Belongs home g' k) : g = g' := by
  obtain ⟨e, hok, hg, rfl⟩ := h
  by_cases hkind : e.kind = CHANNEL_KEY
  · obtain ⟨_, c, rfl⟩ := Entity.eq_channel_of_kind hkind
    exact Option.some.inj (hg.symm.trans (hok.symm.trans (belongs_channel.mp h')))
  · obtain ⟨e', -, hg', hk⟩ := h'
    obtain rfl := Entity.stored_inj hk.symm hkind
    exact Option.some.inj (hg.symm.trans hg')

/-! ## Channels in the index of their guild -/

/-- A cached channel is listed in the index of its guild, and no other guild's index lists it. -/
structure Homed (home : Id .channel → Option (Id .guild)) (s : Store T) : Prop where
  listed : ∀ g c, home c = some g → s.Has (privateChannelKey c) →
    privateChannelKey c ∈ s.sets (guildKeys (toString g))
  home : ∀ g k, kindOf k = CHANNEL_KEY → k ∈ s.sets (guildKeys (toString g)) →
    ∃ c, home c = some g ∧ k = privateChannelKey c

theorem Homed.empty : Homed home (Store.empty : Store T) where
  listed _ _ _ hk := (Store.not_has_empty _ hk).elim
  home _ _ _ hk := by simp [Store.empty] at hk

theorem setMembers_guildChannelKey (g : Id .guild) (c : Id .channel) :
    setMembers (guildChannelKey g c) =
      [(kindKeys CHANNEL_KEY, privateChannelKey c), (guildKeys (toString g), privateChannelKey c)] := by
  have hnew : newKey (guildChannelKey g c) = privateChannelKey c := newKey_key (.channel (some g) c)
  unfold setMembers
  rw [hnew]
  simp [CHANNEL_KEY, MESSAGE_KEY]

/-- A written channel is entered in the index of its home, and in no other guild's. -/
theorem mem_setMembers_channel {g' : Option (Id .guild)} {c : Id .channel} :
    (guildKeys (toString g), k) ∈ setMembers (channelKey g' c) ↔
      g' = some g ∧ k = privateChannelKey c := by
  cases g' with
  | none =>
    have hset : setMembers (channelKey none c) = [(kindKeys CHANNEL_KEY, privateChannelKey c)] :=
      setMembers_stored (.channel none c)
    rw [hset]
    simp (disch := decide) [guildKeys_ne_kindKeys]
  | some g' =>
    rw [show channelKey (some g') c = guildChannelKey g' c from rfl, setMembers_guildChannelKey]
    simp (disch := decide) [guildKeys_ne_kindKeys, eq_comm]

/-- The stored key of a channel is listed in no guild's index. -/
theorem notMem_setMembers_private {c : Id .channel} :
    (guildKeys (toString g), k) ∉ setMembers (privateChannelKey c) := by
  intro hm
  have hkey : (guildKeys (toString g), k) ∈ setMembers (channelKey none c) := hm
  exact nomatch (mem_setMembers_channel.mp hkey).1

theorem Homed.stable : Stable J (HomeOnly home) (Homed (T := T) home) where
  put kvs s hkvs h := by
    constructor
    · intro g c hg hk
      rw [mem_sets_putAll]
      rcases has_putAll.mp hk with hk | ⟨kv, hkv, hnew⟩
      · exact Or.inl (h.listed g c hg hk)
      · obtain ⟨e, hok, hkey, -⟩ := hkvs kv hkv
        rw [← hkey, newKey_key] at hnew
        obtain ⟨g', c', rfl⟩ := Entity.eq_channel_of_kind (e := e) (by rw [← kindOf_stored, hnew]; simp)
        obtain rfl := privateChannelKey_inj.mp hnew
        refine Or.inr ⟨kv, hkv, ?_⟩
        rw [← hkey]
        exact mem_setMembers_channel.mpr ⟨hok.symm.trans hg, rfl⟩
    · intro g k hkind hk
      rcases mem_sets_putAll.mp hk with hk | ⟨kv, hkv, hk⟩
      · exact h.home g k hkind hk
      · obtain ⟨e, hok, hkey, -⟩ := hkvs kv hkv
        rw [← hkey] at hk
        have hek := eq_newKey_of_mem_setMembers hk
        rw [newKey_key] at hek
        obtain ⟨g', c', rfl⟩ := Entity.eq_channel_of_kind (e := e) (by rw [← kindOf_stored, ← hek, hkind])
        obtain ⟨rfl, rfl⟩ := mem_setMembers_channel.mp hk
        exact ⟨c', hok, rfl⟩
  drop keys s h := by
    constructor
    · intro g c hg hk
      obtain ⟨hk, hn⟩ := has_dropAll.mp hk
      refine mem_sets_dropAll.mpr ⟨h.listed g c hg hk, ?_⟩
      rintro ⟨key, hkey, hm⟩
      exact hn ⟨key, hkey, (eq_newKey_of_mem_setMembers hm).symm⟩
    · intro g k hkind hk
      exact h.home g k hkind (mem_sets_dropAll.mp hk).1
  hash s s' hstr hset h := by
    constructor
    · intro g c hg hk
      rw [← hset]
      exact h.listed g c hg (by unfold Store.Has at hk ⊢; rwa [hstr])
    · intro g k hkind hk
      exact h.home g k hkind (by rwa [hset])

/-! ## Well-formed states -/

/-- What holds in every state a run reaches, if every channel occurs with its home only. -/
structure WellFormed (J : Json T V) (home : Id .channel → Option (Id .guild)) (s : Store T) :
    Prop where
  indexed : Indexed s
  known : Known J (HomeOnly home) s
  homed : Homed home s
  deadlined : Deadlined J s

theorem WellFormed.stateAfter {steps : List Step}
    (hok : ∀ step ∈ steps, step.Ok (HomeOnly home)) :
    WellFormed J home (stateAfter J cfg botId steps) where
  indexed := (Indexed.stable (J := J) _).stateAfter .empty hok
  known := (Known.stable _).stateAfter .empty hok
  homed := (Homed.stable (J := J)).stateAfter .empty hok
  deadlined := Deadlined.stateAfter steps

namespace WellFormed

variable (h : WellFormed J home s)
include h

/-- What is cached and belongs to a guild is listed in its index. -/
theorem listed (hk : s.Has k) (hb : Belongs home g k) : k ∈ s.sets (guildKeys (toString g)) := by
  obtain ⟨e, hok, hg, rfl⟩ := hb
  by_cases hkind : e.kind = CHANNEL_KEY
  · obtain ⟨_, c, rfl⟩ := Entity.eq_channel_of_kind hkind
    exact h.homed.listed g c (hok.trans hg) hk
  · rw [h.indexed.listed _ _ fun hc => absurd (kindOf_stored e ▸ hc) hkind]
    exact ⟨hk, (mem_setMembers_stored e).mpr (guildKeys_mem_indexes.mpr ⟨hkind, hg⟩)⟩

/-- What the index of a guild lists belongs to it. -/
theorem belongs (hk : k ∈ s.sets (guildKeys (toString g))) : Belongs home g k := by
  by_cases hkind : kindOf k = CHANNEL_KEY
  · obtain ⟨c, hc, rfl⟩ := h.homed.home g k hkind hk
    exact belongs_channel.mpr hc
  · obtain ⟨hhas, hm⟩ := (h.indexed.listed _ _ fun hc => absurd hc hkind).mp hk
    obtain ⟨e, hok, rfl⟩ := h.known.entity hhas
    exact ⟨e, hok, (guildKeys_mem_indexes.mp ((mem_setMembers_stored e).mp hm)).2, rfl⟩

/-- What the index of a guild lists and is not a channel is cached. -/
theorem has_of_listed (hk : k ∈ s.sets (guildKeys (toString g))) (hkind : kindOf k ≠ CHANNEL_KEY) :
    s.Has k :=
  ((h.indexed.listed _ _ fun hc => absurd hc hkind).mp hk).1

theorem newKey_listed (hk : k ∈ s.sets (guildKeys (toString g))) : newKey k = k := by
  obtain ⟨e, -, -, rfl⟩ := h.belongs hk
  exact newKey_stored e

end WellFormed

end TwilightDispatch
