import TwilightDispatch.Constants

/-!
# Gateway objects and events

The objects and gateway events the service handles, with the fields it reads or writes. What it
only stores and hands on is kept whole, as one `Extra` per object.
-/

namespace TwilightDispatch

/-- The fields of an object that are only stored and handed on. -/
abbrev Extra := String

/-- A point in time as the gateway sends it. -/
abbrev Timestamp := ℤ

/-! ## Objects -/

structure User where
  id : Id .user
  extra : Extra
  deriving DecidableEq

structure CurrentUser where
  id : Id .user
  extra : Extra
  deriving DecidableEq

structure Channel where
  id : Id .channel
  guildId : Option (Id .guild)
  lastPinTimestamp : Option Timestamp
  extra : Extra
  deriving DecidableEq

structure Role where
  id : Id .role
  extra : Extra
  deriving DecidableEq

structure Emoji where
  id : Id .emoji
  extra : Extra
  deriving DecidableEq

structure VoiceState where
  guildId : Option (Id .guild)
  channelId : Option (Id .channel)
  userId : Id .user
  extra : Extra
  deriving DecidableEq

structure Member where
  guildId : Id .guild
  joinedAt : Timestamp
  nick : Option String
  premiumSince : Option Timestamp
  roles : List (Id .role)
  user : User
  extra : Extra
  deriving DecidableEq

structure Presence where
  guildId : Id .guild
  userId : Id .user
  extra : Extra
  deriving DecidableEq

structure Message where
  id : Id .message
  channelId : Id .channel
  attachments : List Extra
  content : String
  editedTimestamp : Option Timestamp
  embeds : List Extra
  mentionEveryone : Bool
  mentionRoles : List (Id .role)
  mentions : List Extra
  pinned : Bool
  timestamp : Timestamp
  tts : Bool
  extra : Extra
  deriving DecidableEq

/-- A guild as a guild create event carries it. -/
structure Guild where
  id : Id .guild
  name : String
  channels : List Channel
  emojis : List Emoji
  members : List Member
  presences : List Presence
  roles : List Role
  voiceStates : List VoiceState
  extra : Extra
  deriving DecidableEq

structure PartialGuild where
  id : Id .guild
  extra : Extra
  deriving DecidableEq

structure UnavailableGuild where
  id : Id .guild
  unavailable : Bool
  deriving DecidableEq

/-! ## Payloads -/

structure ChannelPinsUpdate where
  guildId : Option (Id .guild)
  channelId : Id .channel
  lastPinTimestamp : Option Timestamp

structure GuildDelete where
  id : Id .guild
  unavailable : Bool

structure GuildEmojisUpdate where
  guildId : Id .guild
  emojis : List Emoji

structure MemberRemove where
  guildId : Id .guild
  user : User

structure MemberUpdate where
  guildId : Id .guild
  joinedAt : Timestamp
  nick : Option String
  premiumSince : Option Timestamp
  roles : List (Id .role)
  user : User

structure MemberChunk where
  guildId : Id .guild
  members : List Member

structure MessageDelete where
  channelId : Id .channel
  id : Id .message

structure MessageDeleteBulk where
  channelId : Id .channel
  ids : List (Id .message)

structure MessageUpdate where
  id : Id .message
  channelId : Id .channel
  attachments : Option (List Extra)
  content : Option String
  editedTimestamp : Option Timestamp
  embeds : Option (List Extra)
  mentionEveryone : Option Bool
  mentionRoles : Option (List (Id .role))
  mentions : Option (List Extra)
  pinned : Option Bool
  timestamp : Option Timestamp
  tts : Option Bool

structure Ready where
  user : CurrentUser
  guilds : List UnavailableGuild
  sessionId : String

/-- A created or updated role. -/
structure RoleEvent where
  guildId : Id .guild
  role : Role

structure RoleDelete where
  guildId : Id .guild
  roleId : Id .role

structure ShardDisconnected where
  code : Option ℕ
  reason : Option String

/-! ## Events -/

/-- The events of the stream of a cluster. `other` stands for those the service ignores. -/
inductive Event where
  | channelCreate (data : Channel)
  | channelDelete (data : Channel)
  | channelPinsUpdate (data : ChannelPinsUpdate)
  | channelUpdate (data : Channel)
  | gatewayHello (data : ℕ)
  | gatewayInvalidateSession (data : Bool)
  | guildCreate (data : Guild)
  | guildDelete (data : GuildDelete)
  | guildEmojisUpdate (data : GuildEmojisUpdate)
  | guildUpdate (data : PartialGuild)
  | memberAdd (data : Member)
  | memberRemove (data : MemberRemove)
  | memberUpdate (data : MemberUpdate)
  | memberChunk (data : MemberChunk)
  | messageCreate (data : Message)
  | messageDelete (data : MessageDelete)
  | messageDeleteBulk (data : MessageDeleteBulk)
  | messageUpdate (data : MessageUpdate)
  | presenceUpdate (data : Presence)
  | ready (data : Ready)
  | resumed
  | roleCreate (data : RoleEvent)
  | roleDelete (data : RoleDelete)
  | roleUpdate (data : RoleEvent)
  | shardConnected
  | shardConnecting (gateway : String)
  | shardDisconnected (data : ShardDisconnected)
  | shardIdentifying
  | shardPayload (bytes : List UInt8)
  | shardReconnecting
  | shardResuming (seq : ℕ)
  | unavailableGuild (data : UnavailableGuild)
  | userUpdate (data : CurrentUser)
  | voiceStateUpdate (data : VoiceState)
  | other

/-- The event kinds the service tells apart before it looks at the event. -/
inductive EventType where
  | ready | shardPayload | other
  deriving DecidableEq

def Event.kind : Event → EventType
  | .ready _ => .ready
  | .shardPayload _ => .shardPayload
  | _ => .other

end TwilightDispatch
