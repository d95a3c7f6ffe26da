import TwilightDispatch.Frame
import TwilightDispatch.Messages

/-!
# Reading, changing and writing back

The updates of the pins of a channel, of a member and of a message read the cached object, replace some
of its fields and write it back. The pins of a channel of a guild are read under a key that nothing is
stored under, so they are never replaced (`modifies_iff`).
-/

namespace TwilightDispatch

open Atomic Redis

variable {T V α : Type} {J : Json T V} {cfg : Config} {botId : Id .user} {env : Env}
  {s s' : Store T} {ok : Entity → Prop} {e : Entity} {wrap : α → Item} {change : α → α}
  {key : String}

/-! ## Changes of one object -/

/-- The object under a key is changed, and nothing else is, deadlines apart. Without an object nothing
is. -/
structure Changes (J : Json T V) (wrap : α → Item) (change : α → α) (key : String)
    (s s' : Store T) : Prop where
  cached : s.Has key → ∃ a, s.strings key = some (J.text (wrap a)) ∧
    s'.strings key = some (J.text (wrap (change a)))
  others : ∀ k, k ≠ key → s'.strings k = s.strings k
  sets : s'.sets = s.sets
  absent : ¬ s.Has key → s' = s

/-- What an entity is listed under is there while the entity is stored. -/
theorem Indexed.mem_sets (h : Indexed s) (hs : s.Has e.stored) {S m : String}
    (hm : (S, m) ∈ setMembers e.stored) : m ∈ s.sets S := by
  obtain rfl : m = e.stored := (eq_newKey_of_mem_setMembers hm).trans (newKey_stored e)
  refine (h.listed S e.stored fun hkind g hS => ?_).mpr ⟨hs, hm⟩
  rw [kindOf_stored] at hkind
  obtain ⟨g', c, rfl⟩ := Entity.eq_channel_of_kind hkind
  have hindex : S = kindKeys CHANNEL_KEY := by
    simpa [setMembers_stored, Entity.indexes] using hm
  exact guildKeys_ne_kindKeys (by decide) g (hS.symm.trans hindex)

theorem Changes.of_absent (h : s.strings key = none) : Changes J wrap change key s s where
  cached hs := absurd h hs
  others _ _ := rfl
  sets := rfl
  absent _ := rfl

variable (wrap) in
/-- Writing the changed object changes it only. -/
theorem Changes.of_put (hindexed : Indexed s) {a : α}
    (ha : s.strings e.stored = some (J.text (wrap a))) (hashes : String → Hash T) :
    Changes J wrap change e.stored s
      { putAll J [(e.stored, wrap (change a))] s with hashes := hashes } := by
  have hs : s.Has e.stored := fun hnone => nomatch ha.symm.trans hnone
  refine ⟨fun _ => ⟨a, ha, ?_⟩, fun k hk => ?_, ?_, fun hn => absurd hs hn⟩
  · simp [storedPairs, lastOf_cons]
  · have hnone : lastOf (storedPairs J [(e.stored, wrap (change a))]) k = none := by
      refine lastOf_storedPairs_eq_none fun kv hkv => ?_
      rw [List.mem_singleton.mp hkv, newKey_stored]
      exact hk.symm
    change (lastOf (storedPairs J [(e.stored, wrap (change a))]) k).or (s.strings k) = _
    rw [hnone, Option.none_or]
  · funext S
    ext m
    change m ∈ (putAll J [(e.stored, wrap (change a))] s).sets S ↔ _
    rw [mem_sets_putAll]
    refine or_iff_left_of_imp ?_
    rintro ⟨kv, hkv, hm⟩
    rw [List.mem_singleton.mp hkv] at hm
    exact hindexed.mem_sets hs hm

variable (wrap) in
theorem Changes.of_set (hindexed : Indexed s) {a : α}
    (ha : s.strings e.stored = some (J.text (wrap a))) :
    Changes J wrap change e.stored s (putAll J [(e.stored, wrap (change a))] s) :=
  .of_put wrap hindexed ha s.hashes

/-! ## The events -/

/-- What is cached for a channel is a channel. -/
theorem Known.cachedChannel (h : Known J ok s) (c : Id .channel) : ∃ channel : Option Channel,
    s.strings (privateChannelKey c) = channel.map fun channel => J.text (.channel channel) := by
  cases ht : s.strings (privateChannelKey c) with
  | none => exact ⟨none, rfl⟩
  | some t =>
    obtain ⟨e, i, -, hk, hi, rfl⟩ := h _ t ht
    have hkind : e.kind = CHANNEL_KEY := by
      rw [← kindOf_stored, hk]
      exact kindOf_stored (.channel none c)
    obtain ⟨g, c', rfl⟩ := Entity.eq_channel_of_kind hkind
    cases i with
    | channel channel => exact ⟨some channel, rfl⟩
    | _ => exact hi.elim

/-- What is cached for a member is a member. -/
theorem Known.cachedMember (h : Known J ok s) (g : Id .guild) (u : Id .user) :
    ∃ member : Option Member,
      s.strings (memberKey g u) = member.map fun member => J.text (.member member) := by
  refine h.cached (.member g u) (by decide : MEMBER_KEY ≠ CHANNEL_KEY) fun i hi => ?_
  cases i with
  | member member => exact ⟨member, rfl⟩
  | _ => exact hi.elim

/-- What the event has to do with its object. Members and messages are changed where they are
cached. -/
def Event.Modifies (J : Json T V) (cfg : Config) (botId : Id .user) (s s' : Store T) : Event → Prop
  | .channelPinsUpdate data =>
    Changes J Item.channel
      (fun channel => { channel with lastPinTimestamp := data.lastPinTimestamp })
      (privateChannelKey data.channelId) s s'
  | .memberUpdate data => cfg.stateMember = true ∨ data.user.id = botId →
    Changes J Item.member
      (fun member => { member with
        joinedAt := data.joinedAt
        nick := data.nick
        premiumSince := data.premiumSince
        roles := data.roles
        user := data.user })
      (memberKey data.guildId data.user.id) s s'
  | .messageUpdate data => cfg.stateMessage = true →
    Changes J Item.message
      (fun message => { message with
        attachments := data.attachments.getD message.attachments
        content := data.content.getD message.content
        editedTimestamp := data.editedTimestamp.or message.editedTimestamp
        embeds := data.embeds.getD message.embeds
        mentionEveryone := data.mentionEveryone.getD message.mentionEveryone
        mentionRoles := data.mentionRoles.getD message.mentionRoles
        mentions := data.mentions.getD message.mentions
        pinned := data.pinned.getD message.pinned
        timestamp := data.timestamp.getD message.timestamp
        tts := data.tts.getD message.tts })
      (messageKey data.channelId data.id) s s'
  | _ => True

/-- The event is about the pins of a cached channel of a guild, and the channel has other ones. -/
def PinsMissed (J : Json T V) (s : Store T) : Event → Prop
  | .channelPinsUpdate data => data.guildId ≠ none ∧ ∃ channel : Channel,
    s.strings (privateChannelKey data.channelId) = some (J.text (.channel channel)) ∧
      channel.lastPinTimestamp ≠ data.lastPinTimestamp
  | _ => False

section Arms

variable (hknown : Known J ok s) (hindexed : Indexed s) (hJ : J.Lawful)
include hknown hindexed hJ

theorem modifies_memberUpdate {data : MemberUpdate}
    (hon : cfg.stateMember = true ∨ data.user.id = botId) :
    Changes J Item.member data.merge (memberKey data.guildId data.user.id) s
      (Fallible.run exec (update J cfg botId env (.memberUpdate data)) s).2 := by
  have hup : update J cfg botId env (.memberUpdate data) = _ := if_pos (by simpa using hon)
  obtain ⟨member, hmember⟩ := hknown.cachedMember data.guildId data.user.id
  rw [hup]
  cases member with
  | none =>
    rw [Fallible.run_bind_ok (run_get_none hmember)]
    exact .of_absent hmember
  | some member =>
    rw [Fallible.run_bind_ok (run_get_some hmember (hJ.member member))]
    obtain ⟨hashes, hrun⟩ := run_refresh_snd cfg s hJ env (.member member)
      (.member (data.merge member)) (memberKey data.guildId data.user.id) cfg.stateMemberTtl
    refine hrun ▸ ?_
    exact Changes.of_put (e := .member _ _) Item.member hindexed hmember hashes

theorem modifies_messageUpdate {data : MessageUpdate} (hon : cfg.stateMessage = true) :
    Changes J Item.message data.merge (messageKey data.channelId data.id) s
      (Fallible.run exec (update J cfg botId env (.messageUpdate data)) s).2 := by
  have hup : update J cfg botId env (.messageUpdate data) = _ := if_pos hon
  obtain ⟨message, hmessage⟩ := hknown.cachedMessage data.channelId data.id
  rw [hup]
  cases message with
  | none =>
    rw [Fallible.run_bind_ok (run_get_none hmessage)]
    exact .of_absent hmessage
  | some message =>
    rw [Fallible.run_bind_ok (run_get_some hmessage (hJ.message message))]
    obtain ⟨hashes, hrun⟩ := run_refresh_snd cfg s hJ env (.message message)
      (.message (data.merge message)) (messageKey data.channelId data.id) cfg.stateMessageTtl
    refine hrun ▸ ?_
    exact Changes.of_put (e := .message _ _) Item.message hindexed hmessage hashes

theorem modifies_channelPinsUpdate (data : ChannelPinsUpdate) :
    (Event.channelPinsUpdate data).Modifies J cfg botId s
      (Fallible.run exec (update J cfg botId env (.channelPinsUpdate data)) s).2 ↔
        ¬ PinsMissed J s (.channelPinsUpdate data) := by
  obtain ⟨channel, hchannel⟩ := hknown.cachedChannel data.channelId
  rcases data with ⟨_ | g, c, pins⟩
  · refine iff_of_true ?_ fun hmissed => hmissed.1 rfl
    cases channel with
    | none =>
      change Changes _ _ _ _ s (Fallible.run exec (get J.channel (privateChannelKey c) >>= _) s).2
      rw [Fallible.run_bind_ok (run_get_none hchannel)]
      exact .of_absent hchannel
    | some channel =>
      change Changes _ _ _ _ s (Fallible.run exec (get J.channel (privateChannelKey c) >>= _) s).2
      rw [Fallible.run_bind_ok (run_get_some hchannel (hJ.channel channel))]
      change Changes _ _ _ _ s (Fallible.run exec (set J env.orders (privateChannelKey c)
        (.channel { channel with lastPinTimestamp := pins }) >>= _) s).2
      rw [Fallible.run_bind_ok (run_set _ _)]
      exact Changes.of_set (e := .channel none c) Item.channel hindexed hchannel
  · -- nothing is found, and nothing is written
    have hnone := hindexed.strings_guildChannelKey g c
    have hrun : (Fallible.run exec (update J cfg botId env
        (.channelPinsUpdate ⟨some g, c, pins⟩)) s).2 = s := by
      change (Fallible.run exec (get J.channel (guildChannelKey g c) >>= _) s).2 = s
      rw [Fallible.run_bind_ok (run_get_none hnone)]
      rfl
    rw [hrun]
    constructor
    · rintro h ⟨-, channel, hcached, hne⟩
      obtain ⟨channel', hcached', hchanged⟩ := h.cached fun hn => nomatch hn.symm.trans hcached
      have heq : J.text (.channel channel) = J.text (.channel { channel' with lastPinTimestamp := pins }) :=
        Option.some.inj (hcached.symm.trans hchanged)
      have hdecode := hJ.channel channel
      rw [heq, hJ.channel] at hdecode
      exact hne (congrArg Channel.lastPinTimestamp (Except.ok.inj hdecode)).symm
    · intro hmissed
      refine ⟨fun hs => ?_, fun _ _ => rfl, rfl, fun _ => rfl⟩
      cases channel with
      | none => exact absurd hchannel hs
      | some channel =>
        refine ⟨channel, hchannel, hchannel.trans ?_⟩
        have hpins : channel.lastPinTimestamp = pins := by
          by_contra hne
          exact hmissed ⟨nofun, channel, hchannel, hne⟩
        rw [← hpins]
        rfl

end Arms

/-- **Reading, changing and writing back.** In every state that a run reaches, an event that changes a
cached object replaces the fields it carries and nothing else, and does nothing without the object,
exactly if it is not about new pins of a cached channel of a guild. -/
theorem modifies_iff {J : Json T V} (hJ : J.Lawful) (cfg : Config) (botId : Id .user)
    (steps : List Step) (env : Env) (event : Event) :
    let s := stateAfter J cfg botId steps
    event.Modifies J cfg botId s (Step.next J cfg botId s ⟨env, .event event⟩) ↔
      ¬ PinsMissed J s event := by
  intro s
  have hok : ∀ step ∈ steps, step.Ok fun _ => True := fun step _ => step.ok_true
  have hknown : Known J (fun _ => True) s := (Known.stable _).stateAfter .empty hok
  have hindexed : Indexed s := (Indexed.stable (J := J) _).stateAfter .empty hok
  rw [Step.next_event]
  cases event with
  | channelPinsUpdate data => exact modifies_channelPinsUpdate hknown hindexed hJ data
  | memberUpdate data => exact iff_of_true (modifies_memberUpdate hknown hindexed hJ) id
  | messageUpdate data => exact iff_of_true (modifies_messageUpdate hknown hindexed hJ) id
  | _ => exact iff_of_true trivial id

/-- A private channel is created, and gets pins. -/
theorem modifies_private :
    let s := stateAfter Json.plain .full (.of 9)
      [⟨.at (.of 0), .event (.channelCreate ⟨.of 2, none, none, ""⟩)⟩]
    let event : Event := .channelPinsUpdate ⟨none, .of 2, some 7⟩
    event.Modifies Json.plain .full (.of 9) s
      (Step.next Json.plain .full (.of 9) s ⟨.at (.of 0), .event event⟩) :=
  (modifies_iff Json.plain_lawful .full (.of 9) _ _ _).mpr fun h => h.1 rfl

/-- A channel of a guild is created, and keeps its old pins. -/
theorem modifies_missed :
    let s := stateAfter Json.plain .full (.of 9)
      [⟨.at (.of 0), .event (.channelCreate ⟨.of 2, some (.of 1), none, ""⟩)⟩]
    let event : Event := .channelPinsUpdate ⟨some (.of 1), .of 2, some 7⟩
    ¬ event.Modifies Json.plain .full (.of 9) s
      (Step.next Json.plain .full (.of 9) s ⟨.at (.of 0), .event event⟩) := by
  intro s event h
  have hpins : ((Step.next Json.plain .full (.of 9) s ⟨.at (.of 0), .event event⟩).strings
      (privateChannelKey (.of 2))).any (fun item =>
        (Json.plain.channel item).toOption.any fun channel => channel.lastPinTimestamp.isNone) =
          true := by
    decide +kernel
  have hcached : s.Has (privateChannelKey (.of 2)) :=
    Option.isSome_iff_ne_none.mp (by decide +kernel)
  obtain ⟨channel, -, hchanged⟩ := h.cached hcached
  rw [hchanged] at hpins
  cases hpins

end TwilightDispatch
