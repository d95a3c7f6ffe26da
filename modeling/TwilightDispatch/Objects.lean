import TwilightDispatch.Run

/-!
# The cache as a map of objects

What the cache is for, without keys, texts and commands: it has a value for every object, a deadline
for those that expire, and for every guild the channels that have been written with it. `Event.effect`
is what an event does to it and `Cache.expire` what a sweep does. The two events that read a list of keys
do nothing where this fails (`Cache.changeTo`).

An object has values of one type only (`CacheObject.Value`), so a cache with a value of the wrong type
for an object cannot be built.
-/

namespace TwilightDispatch

/-! ## Objects and their values -/

/-- What a value is cached for. A channel is one object, in whichever guild it occurs. -/
inductive CacheObject where
  | botUser
  | guild (g : Id .guild)
  | channel (c : Id .channel)
  | message (c : Id .channel) (m : Id .message)
  | role (g : Id .guild) (r : Id .role)
  | emoji (g : Id .guild) (e : Id .emoji)
  | member (g : Id .guild) (u : Id .user)
  | presence (g : Id .guild) (u : Id .user)
  | voice (g : Id .guild) (u : Id .user)
  deriving DecidableEq

/-- What is cached for a guild: the guild as it was created or updated, or that it is unavailable. -/
inductive GuildValue where
  | created (data : Guild)
  | updated (data : PartialGuild)
  | unavailable (data : UnavailableGuild)

/-- The values of an object. -/
@[reducible] def CacheObject.Value : CacheObject → Type
  | botUser => CurrentUser
  | guild _ => GuildValue
  | channel _ => Channel
  | message _ _ => Message
  | role _ _ => Role
  | emoji _ _ => Emoji
  | member _ _ => Member
  | presence _ _ => Presence
  | voice _ _ => VoiceState

/-- The guild an object is part of. A channel does not say which. -/
def CacheObject.guildOf : CacheObject → Option (Id .guild)
  | role g _ | emoji g _ | member g _ | presence g _ | voice g _ => some g
  | botUser | guild _ | channel _ | message _ _ => none

/-- The object an entity is. -/
@[reducible] def Entity.object : Entity → CacheObject
  | botUser => .botUser
  | guild g => .guild g
  | channel _ c => .channel c
  | message c m => .message c m
  | role g r => .role g r
  | emoji g e => .emoji g e
  | member g u => .member g u
  | presence g u => .presence g u
  | voice g u => .voice g u

/-- An entity with a value of it. -/
abbrev CacheEntry := Σ e : Entity, e.object.Value

/-! ## The cache -/

@[ext] structure Cache where
  value : (o : CacheObject) → Option o.Value
  deadline : CacheObject → Option FormattedDateTime
  listed : Id .guild → Finset (Id .channel)

namespace Cache

def empty : Cache where
  value _ := none
  deadline _ := none
  listed _ := ∅

/-- Store a value. A channel that is stored with a guild is listed there. -/
def set (c : Cache) (entry : CacheEntry) : Cache where
  value := Function.update c.value entry.1.object (some entry.2)
  deadline := c.deadline
  listed g := match entry.1 with
    | .channel (some g') ch => if g = g' then insert ch (c.listed g) else c.listed g
    | _ => c.listed g

def setAll (c : Cache) (entries : List CacheEntry) : Cache := entries.foldl set c

/-- Remove the values of some objects. -/
def dropWhere (c : Cache) (p : CacheObject → Bool) : Cache :=
  { c with value := fun o => if p o then none else c.value o }

/-- Remove a value. A channel that is removed with a guild is no longer listed there. -/
def del (c : Cache) (e : Entity) : Cache where
  value := (c.dropWhere fun o => o = e.object).value
  deadline := c.deadline
  listed g := match e with
    | .channel (some g') ch => if g = g' then (c.listed g).erase ch else c.listed g
    | _ => c.listed g

def delAll (c : Cache) (entities : List Entity) : Cache := entities.foldl del c

/-- Change the value of an object, if it has one. -/
def modify (c : Cache) (o : CacheObject) (f : o.Value → o.Value) : Cache :=
  { c with value := Function.update c.value o ((c.value o).map f) }

/-- Give objects a deadline, if it is a date. -/
def stamp (c : Cache) (objects : List CacheObject) (deadline : Option FormattedDateTime) : Cache :=
  { c with deadline := fun o => if o ∈ objects then deadline.or (c.deadline o) else c.deadline o }

/-- An object is removed with a guild: it is the guild, part of it, or a channel listed there. -/
def clearedWith (c : Cache) (g : Id .guild) : CacheObject → Bool
  | .guild g' => g' = g
  | .channel ch => ch ∈ c.listed g
  | o => o.guildOf = some g

/-- Remove a guild and what belongs to it. Its channels stay listed. -/
def clear (c : Cache) (g : Id .guild) : Cache := c.dropWhere (c.clearedWith g)

/-- The deadline of an object has passed. -/
def overdue (c : Cache) (now : FormattedDateTime) (o : CacheObject) : Bool :=
  (c.deadline o).any fun d => d.nanos < now.nanos

/-- Remove the objects whose deadline has passed. -/
def expire (c : Cache) (now : FormattedDateTime) : Cache where
  value := (c.dropWhere (c.overdue now)).value
  deadline o := if c.overdue now o then none else c.deadline o
  listed := c.listed

section Operations

variable {c : Cache} {e : Entity} {entry : CacheEntry} {o : CacheObject} {g : Id .guild}
  {ch : Id .channel} {now : FormattedDateTime}

@[simp] theorem value_set_self : (c.set entry).value entry.1.object = some entry.2 :=
  Function.update_self _ _ _

theorem value_set_of_ne (h : o ≠ entry.1.object) : (c.set entry).value o = c.value o :=
  Function.update_of_ne h _ _

@[simp] theorem deadline_set : (c.set entry).deadline = c.deadline := rfl

@[simp] theorem mem_listed_set :
    ch ∈ (c.set entry).listed g ↔ ch ∈ c.listed g ∨ entry.1 = .channel (some g) ch := by
  obtain ⟨e, v⟩ := entry
  unfold set
  cases e with
  | channel g' ch' =>
    cases g' with
    | none => simp
    | some g' =>
      by_cases hg : g = g'
      · simp [hg, or_comm, eq_comm]
      · simp [hg, Ne.symm hg]
  | _ => simp

@[simp] theorem value_dropWhere (p : CacheObject → Bool) :
    (c.dropWhere p).value o = if p o then none else c.value o := rfl

@[simp] theorem value_del : (c.del e).value o = if o = e.object then none else c.value o := by
  simp [del]

@[simp] theorem deadline_del : (c.del e).deadline = c.deadline := rfl

@[simp] theorem mem_listed_del :
    ch ∈ (c.del e).listed g ↔ ch ∈ c.listed g ∧ e ≠ .channel (some g) ch := by
  unfold del
  cases e with
  | channel g' ch' =>
    cases g' with
    | none => simp
    | some g' =>
      by_cases hg : g = g'
      · simp [hg, and_comm, eq_comm]
      · simp [hg, Ne.symm hg]
  | _ => simp

@[simp] theorem deadline_setAll (entries : List CacheEntry) :
    (c.setAll entries).deadline = c.deadline := by
  induction entries generalizing c with
  | nil => rfl
  | cons entry entries ih => exact ih.trans deadline_set

/-- What entries are written over does not matter. -/
theorem value_setAll_congr {c' : Cache} {entries : List CacheEntry}
    (h : (∀ entry ∈ entries, entry.1.object ≠ o) → c.value o = c'.value o) :
    (c.setAll entries).value o = (c'.setAll entries).value o := by
  induction entries generalizing c c' with
  | nil => exact h nofun
  | cons entry entries ih =>
    refine ih fun hrest => ?_
    by_cases ho : o = entry.1.object
    · subst ho
      rw [value_set_self, value_set_self]
    · rw [value_set_of_ne ho, value_set_of_ne ho]
      exact h (List.forall_mem_cons.mpr ⟨Ne.symm ho, hrest⟩)

theorem listed_setAll_congr {c' : Cache} (entries : List CacheEntry) (h : c.listed = c'.listed) :
    (c.setAll entries).listed = (c'.setAll entries).listed := by
  induction entries generalizing c c' with
  | nil => exact h
  | cons entry entries ih =>
    refine ih ?_
    unfold set
    simp only [h]

/-- A change is a write of the changed value, for an object that has one and is not listed. -/
theorem modify_eq_set {v : e.object.Value} (h : c.value e.object = some v)
    (he : ∀ g ch, e ≠ .channel (some g) ch) (f : e.object.Value → e.object.Value) :
    c.modify e.object f = c.set ⟨e, f v⟩ := by
  unfold modify set
  congr 1
  · rw [h]
    rfl
  · funext g
    cases e with
    | channel g' ch =>
      cases g' with
      | none => rfl
      | some g' => exact absurd rfl (he g' ch)
    | _ => rfl

/-- Without a value nothing changes. -/
theorem modify_of_none (h : c.value o = none) (f : o.Value → o.Value) : c.modify o f = c := by
  have hvalue : Function.update c.value o ((c.value o).map f) = c.value := by
    rw [h, Option.map_none, ← h, Function.update_eq_self]
  unfold modify
  rw [hvalue]

end Operations

end Cache

/-! ## Events -/

/-- The deadline that a time to live gives, if it is a date. -/
def deadlineAfter (now : FormattedDateTime) (ttl : UInt64) : Option FormattedDateTime :=
  now.add (milliseconds (asI64 ttl))

/-- What a guild create event stores. -/
def Guild.entries (cfg : Config) (botId : Id .user) (data : Guild) : List CacheEntry :=
  data.channels.map (fun channel =>
    ⟨.channel (some data.id) channel.id, { channel with guildId := some data.id }⟩) ++
  data.roles.map (fun role => ⟨.role data.id role.id, role⟩) ++
  (data.emojis.filter fun _ => cfg.stateEmoji).map (fun emoji => ⟨.emoji data.id emoji.id, emoji⟩) ++
  (data.voiceStates.filter fun _ => cfg.stateVoice).map
    (fun voice => ⟨.voice data.id voice.userId, voice⟩) ++
  (data.members.filter fun member => cfg.stateMember || member.user.id = botId).map
    (fun member => ⟨.member data.id member.user.id, member⟩) ++
  (data.presences.filter fun _ => cfg.statePresence).map
    (fun presence => ⟨.presence data.id presence.userId, presence⟩) ++
  [⟨.guild data.id, .created { data with
    channels := [], roles := [], emojis := [], voiceStates := [], members := [], presences := [] }⟩]

/-- Whether an object is an emoji of the guild. -/
def CacheObject.isEmojiOf (g : Id .guild) : CacheObject → Bool
  | emoji g' _ => g' = g
  | _ => false

/-- One emoji of the guild is cached. -/
def Cache.OneEmoji (c : Cache) (g : Id .guild) : Prop := ∃! id, c.value (.emoji g id) ≠ none

/-- One message is in the list, and it is cached. -/
def Cache.OneMessage (c : Cache) (ch : Id .channel) (ids : List (Id .message)) : Prop :=
  ∃ id, ids = [id] ∧ c.value (.message ch id) ≠ none

open Classical in
/-- The cache after a change for which a list of keys is read. Nothing changes where the read fails: it
finds one value, under the only key, and does not read it as a list. -/
noncomputable def Cache.changeTo (c : Cache) (oneKey : OneKey) (one : Prop) (c' : Cache) : Cache :=
  if oneKey = .single ∧ one then c else c'

theorem Cache.changeTo_list {c c' : Cache} {one : Prop} : c.changeTo .list one c' = c' :=
  if_neg fun h => OneKey.noConfusion h.1

/-- What an event does to the cache, at a time and with a way to read a list of one key. -/
noncomputable def Event.effect (cfg : Config) (botId : Id .user) (oneKey : OneKey)
    (now : FormattedDateTime) (event : Event) (c : Cache) : Cache :=
  match event with
  | channelCreate data => c.set ⟨.channel data.guildId data.id, data⟩
  | channelDelete data => c.del (.channel data.guildId data.id)
  -- the pins of a channel of a guild are looked up under a key that is never stored
  | channelPinsUpdate data =>
    if data.guildId = none then
      c.modify (.channel data.channelId) fun channel =>
        { channel with lastPinTimestamp := data.lastPinTimestamp }
    else c
  | channelUpdate data => c.set ⟨.channel data.guildId data.id, data⟩
  | guildCreate data =>
    let c' := (c.clear data.id).setAll (data.entries cfg botId)
    if cfg.stateMember then
      c'.stamp (data.members.map fun member => .member data.id member.user.id)
        (deadlineAfter now cfg.stateMemberTtl)
    else c'
  | guildDelete data => c.clear data.id
  | guildEmojisUpdate data =>
    if cfg.stateEmoji then
      c.changeTo oneKey (c.OneEmoji data.guildId)
        ((c.dropWhere (CacheObject.isEmojiOf data.guildId)).setAll
          (data.emojis.map fun emoji => ⟨.emoji data.guildId emoji.id, emoji⟩))
    else c
  | guildUpdate data => c.set ⟨.guild data.id, .updated data⟩
  | memberAdd data =>
    if cfg.stateMember then
      (c.set ⟨.member data.guildId data.user.id, data⟩).stamp [.member data.guildId data.user.id]
        (deadlineAfter now cfg.stateMemberTtl)
    else c
  | memberRemove data =>
    let c' := if cfg.stateMember then c.del (.member data.guildId data.user.id) else c
    if cfg.statePresence then c'.del (.presence data.guildId data.user.id) else c'
  | memberUpdate data =>
    if cfg.stateMember || data.user.id = botId then
      if (c.value (.member data.guildId data.user.id)).isSome then
        (c.modify (.member data.guildId data.user.id) data.merge).stamp
          [.member data.guildId data.user.id] (deadlineAfter now cfg.stateMemberTtl)
      else c
    else c
  | memberChunk data =>
    if cfg.stateMember then
      (c.setAll (data.members.map fun member =>
          ⟨.member data.guildId member.user.id, member⟩)).stamp
        (data.members.map fun member => .member data.guildId member.user.id)
        (deadlineAfter now cfg.stateMemberTtl)
    else c
  | messageCreate data =>
    if cfg.stateMessage then
      (c.set ⟨.message data.channelId data.id, data⟩).stamp [.message data.channelId data.id]
        (deadlineAfter now cfg.stateMessageTtl)
    else c
  | messageDelete data =>
    if cfg.stateMessage then c.del (.message data.channelId data.id) else c
  | messageDeleteBulk data =>
    if cfg.stateMessage then
      c.changeTo oneKey (c.OneMessage data.channelId data.ids)
        (c.delAll (data.ids.map fun id => .message data.channelId id))
    else c
  | messageUpdate data =>
    if cfg.stateMessage then
      if (c.value (.message data.channelId data.id)).isSome then
        (c.modify (.message data.channelId data.id) data.merge).stamp
          [.message data.channelId data.id] (deadlineAfter now cfg.stateMessageTtl)
      else c
    else c
  | presenceUpdate data =>
    if cfg.statePresence then c.set ⟨.presence data.guildId data.userId, data⟩ else c
  | ready data =>
    (c.set ⟨.botUser, data.user⟩).setAll
      (data.guilds.map fun guild => ⟨.guild guild.id, .unavailable guild⟩)
  | roleCreate data => c.set ⟨.role data.guildId data.role.id, data.role⟩
  | roleDelete data => c.del (.role data.guildId data.roleId)
  | roleUpdate data => c.set ⟨.role data.guildId data.role.id, data.role⟩
  | unavailableGuild data => (c.clear data.id).set ⟨.guild data.id, .unavailable data⟩
  | userUpdate data => c.set ⟨.botUser, data⟩
  | voiceStateUpdate data =>
    if cfg.stateVoice then
      match data.guildId, data.channelId with
      | some guildId, some _ => c.set ⟨.voice guildId data.userId, data⟩
      | some guildId, none => c.del (.voice guildId data.userId)
      | none, _ => c
    else c
  | _ => c

theorem Event.effect_of_list {cfg : Config} {botId : Id .user} {oneKey : OneKey}
    {now : FormattedDateTime} {event : Event} {c : Cache}
    (h : event.readsMany = true → oneKey = .list) :
    event.effect cfg botId oneKey now c = event.effect cfg botId .list now c := by
  cases event with
  | guildEmojisUpdate data => rw [h rfl]
  | messageDeleteBulk data => rw [h rfl]
  | _ => rfl

/-- What a step of a run does to the cache. The orders of its task do not matter. -/
noncomputable def Step.effect (cfg : Config) (botId : Id .user) (c : Cache) (step : Step) : Cache :=
  match step.job with
  | .event event => event.effect cfg botId step.env.oneKey step.env.now c
  | .sweep => c.expire step.env.now

/-- The cache after a run. -/
noncomputable def cacheAfter (cfg : Config) (botId : Id .user) (steps : List Step) : Cache :=
  steps.foldl (Step.effect cfg botId) Cache.empty

end TwilightDispatch
