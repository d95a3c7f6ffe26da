import TwilightDispatch.Index

/-!
# The state gauges

`getStateStats` of `metrics.rs` counts the cached objects of each kind by the size of the kind's
index. The counts are those of the string map because the indexes agree with it after every run.
-/

namespace TwilightDispatch

open Atomic Redis

variable {T V : Type} {J : Json T V} {cfg : Config} {botId : Id .user} {s : Store T} {k : String}

/-! ## The code -/

structure StateStats where
  guilds : ℕ
  channels : ℕ
  messages : ℕ
  roles : ℕ
  emojis : ℕ
  members : ℕ
  presences : ℕ
  voices : ℕ
  deriving DecidableEq

def getStateStats : Api T StateStats := do
  let guilds ← getMembersLen (GUILD_KEY ++ KEYS_SUFFIX)
  let channels ← getMembersLen (CHANNEL_KEY ++ KEYS_SUFFIX)
  let messages ← getMembersLen (MESSAGE_KEY ++ KEYS_SUFFIX)
  let roles ← getMembersLen (ROLE_KEY ++ KEYS_SUFFIX)
  let emojis ← getMembersLen (EMOJI_KEY ++ KEYS_SUFFIX)
  let members ← getMembersLen (MEMBER_KEY ++ KEYS_SUFFIX)
  let presences ← getMembersLen (PRESENCE_KEY ++ KEYS_SUFFIX)
  let voices ← getMembersLen (VOICE_KEY ++ KEYS_SUFFIX)
  return { guilds, channels, messages, roles, emojis, members, presences, voices }

/-- The eight counts are the sizes of the eight indexes, and counting changes nothing. -/
theorem run_getStateStats : Fallible.run exec getStateStats s = (.ok {
    guilds := (s.sets (kindKeys GUILD_KEY)).card
    channels := (s.sets (kindKeys CHANNEL_KEY)).card
    messages := (s.sets (kindKeys MESSAGE_KEY)).card
    roles := (s.sets (kindKeys ROLE_KEY)).card
    emojis := (s.sets (kindKeys EMOJI_KEY)).card
    members := (s.sets (kindKeys MEMBER_KEY)).card
    presences := (s.sets (kindKeys PRESENCE_KEY)).card
    voices := (s.sets (kindKeys VOICE_KEY)).card }, s) := rfl

/-! ## Kinds -/

/-- The kinds that are indexed and counted. -/
def KINDS : List String :=
  [GUILD_KEY, CHANNEL_KEY, ROLE_KEY, EMOJI_KEY, MEMBER_KEY, PRESENCE_KEY, VOICE_KEY, MESSAGE_KEY]

/-- How many keys of a kind are present. -/
noncomputable def cachedCount (s : Store T) (kind : String) : ℕ :=
  {k | s.Has k ∧ kindOf k = kind}.ncard

/-- In a state whose indexes agree with the string map, a kind's index lists its keys. -/
theorem Indexed.mem_kindKeys {ok : Entity → Prop} (h : Indexed s)
    (hknown : Known J ok s) {kind : String} (hkind : kind ∈ KINDS) :
    k ∈ s.sets (kindKeys kind) ↔ s.Has k ∧ kindOf k = kind := by
  have hcolon : ':' ∉ kind.toList := by
    revert kind
    decide
  have hbot : kind ≠ BOT_USER_KEY := by
    revert kind
    decide
  rw [h.listed _ _ fun _ => kindKeys_ne_guildKeys hcolon]
  refine and_congr_right fun hk => ?_
  obtain ⟨e, -, rfl⟩ := hknown.entity hk
  rw [mem_setMembers_stored, kindKeys_mem_indexes hcolon, kindOf_stored, and_iff_left_iff_imp]
  rintro rfl rfl
  exact hbot rfl

/-- A channel's index lists the keys of its messages. -/
theorem Indexed.mem_channelKeys {ok : Entity → Prop} (h : Indexed s)
    (hknown : Known J ok s) {c : Id .channel} :
    k ∈ s.sets (channelKeys (toString c)) ↔ s.Has k ∧ ∃ m, k = messageKey c m := by
  rw [h.listed _ _ fun _ g => channelKeys_ne_guildKeys _ g]
  refine and_congr_right fun hk => ?_
  obtain ⟨e, -, rfl⟩ := hknown.entity hk
  rw [mem_setMembers_stored, channelKeys_mem_indexes]
  constructor
  · rintro ⟨m, rfl⟩
    exact ⟨m, rfl⟩
  · rintro ⟨m, hm⟩
    have hkind : MESSAGE_KEY ≠ CHANNEL_KEY := by decide
    exact ⟨m, (Entity.stored_inj (e := .message c m) hm.symm hkind).symm⟩

theorem Indexed.card_kindKeys {ok : Entity → Prop} (h : Indexed s)
    (hknown : Known J ok s) {kind : String} (hkind : kind ∈ KINDS) :
    (s.sets (kindKeys kind)).card = cachedCount s kind := by
  unfold cachedCount
  rw [← Set.ncard_coe_finset]
  congr 1
  ext k
  exact h.mem_kindKeys hknown hkind

/-! ## After every run -/

/-- **Exact indexes and gauges.** After every run each kind's index is the set of its keys, the
gauges count them, and each channel's index is the set of its message keys. -/
theorem stateStats_exact (J : Json T V) (cfg : Config) (botId : Id .user) (steps : List Step) :
    let s := stateAfter J cfg botId steps
    (∀ kind ∈ KINDS, ∀ k, k ∈ s.sets (kindKeys kind) ↔ s.Has k ∧ kindOf k = kind) ∧
    (∀ k, s.Has k → ∃ e : Entity, e.stored = k) ∧
    Fallible.run exec getStateStats s = (.ok {
      guilds := cachedCount s GUILD_KEY
      channels := cachedCount s CHANNEL_KEY
      messages := cachedCount s MESSAGE_KEY
      roles := cachedCount s ROLE_KEY
      emojis := cachedCount s EMOJI_KEY
      members := cachedCount s MEMBER_KEY
      presences := cachedCount s PRESENCE_KEY
      voices := cachedCount s VOICE_KEY }, s) ∧
    ∀ (c : Id .channel) k,
      k ∈ s.sets (channelKeys (toString c)) ↔ s.Has k ∧ ∃ m, k = messageKey c m := by
  intro s
  have hany : ∀ step ∈ steps, step.Ok fun _ => True := fun step _ => step.ok_true
  have hindexed : Indexed s := (Indexed.stable (J := J) _).stateAfter .empty hany
  have hknown : Known J (fun _ => True) s := (Known.stable _).stateAfter .empty hany
  refine ⟨fun kind hkind k => hindexed.mem_kindKeys hknown hkind, fun k hk => ?_, ?_,
    fun c k => hindexed.mem_channelKeys hknown⟩
  · obtain ⟨e, -, he⟩ := hknown.entity hk
    exact ⟨e, he⟩
  · have hcard : ∀ kind ∈ KINDS, (s.sets (kindKeys kind)).card = cachedCount s kind :=
      fun kind hkind => hindexed.card_kindKeys hknown hkind
    rw [run_getStateStats, hcard GUILD_KEY (by decide), hcard CHANNEL_KEY (by decide),
      hcard MESSAGE_KEY (by decide), hcard ROLE_KEY (by decide), hcard EMOJI_KEY (by decide),
      hcard MEMBER_KEY (by decide), hcard PRESENCE_KEY (by decide), hcard VOICE_KEY (by decide)]

end TwilightDispatch
