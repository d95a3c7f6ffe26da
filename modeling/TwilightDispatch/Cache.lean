import TwilightDispatch.Models

/-!
# The state cache

The functions of `cache.rs` as programs over Redis commands, in the order of the source. Every
function takes the JSON library and, where it iterates over a hash map or reads the clock, the
`Env` of its task.
-/

namespace TwilightDispatch

open Atomic Redis

variable {T V α : Type}

/-! ## Commands -/

/-- Issue a command; its error is an `ApiError`. -/
def redis (c : Cmd T) : Api T c.Answer :=
  ExceptT.mk (Prog.cmd c fun r => Prog.ret (r.mapError fun err => .error (.redis err)))

/-- A JSON result under a `?`. -/
def orSimdJson (r : Except SimdJsonError α) : Api T α :=
  match r with
  | .ok a => pure a
  | .error err => throw (.error (.simdJson err))

/-- The result of a call whose error the caller handles. A panic is not handled. -/
def attempt (x : Api T α) : Api T (Except ApiError α) := do
  match ← ExceptT.lift (ExceptT.run x) with
  | .ok a => pure (.ok a)
  | .error (.error err) => pure (.error err)
  | .error .panic => throw .panic

/-! ## Reading -/

def get (decode : T → Except SimdJsonError α) (key : String) : Api T (Option α) := do
  match ← redis (.get key) with
  | none => pure none
  | some value => return some (← orSimdJson (decode value))

/-- `conn.get(keys)`, for a result that is a list. For a list of one key the client may send `GET`, and
then a value that is there is not a list. -/
def getKeys (oneKey : OneKey) (keys : List String) : Api T (List (Option T)) :=
  match oneKey, keys with
  | .single, [key] => do
    match ← redis (.get key) with
    | none => return []
    | some _ => throw (.error (.redis ⟨"Response type not vector compatible."⟩))
  | _, keys => redis (.mget keys)

def getAll (oneKey : OneKey) (decode : T → Except SimdJsonError α) (keys : List String) :
    Api T (List (Option α)) := do
  if keys.isEmpty then
    return []
  let res ← getKeys oneKey keys
  res.mapM fun option => match option with
    | none => pure none
    | some value => return some (← orSimdJson (decode value))

def getMembers (orders : Orders) (key : String) : Api T (List String) := do
  let res ← redis (.smembers key)
  return orders.listing res

def getMembersLen (key : String) : Api T ℕ := redis (.scard key)

/-- The entries come in the order in which the hash map is iterated. -/
def getHashmap (orders : Orders) (key : String) : Api T (List (String × T)) := do
  let res ← redis (.hgetall key)
  return (orders.listing res.keys).filterMap fun field => (res.lookup field).map (field, ·)

/-! ## Writing -/

/-- `members.entry(index).or_insert_with(Vec::new).push(member)`. -/
def pushMember : List (String × List String) → String × String → List (String × List String)
  | [], (index, member) => [(index, [member])]
  | (index', values) :: rest, (index, member) =>
    if index' = index then (index', values ++ [member]) :: rest
    else (index', values) :: pushMember rest (index, member)

/-- The key an entry is stored under: a channel is stored without its guild. -/
def newKey (key : String) : String :=
  let parts := split key
  if parts.length > 2 ∧ parts.getD 0 "" = CHANNEL_KEY then
    parts.getD 0 "" ++ ":" ++ parts.getD 2 ""
  else key

/-- What `set_all` pushes into `members` for a key. -/
def setMembers (key : String) : List (String × String) :=
  let parts := split key
  (if parts.length > 1 then [(kindKeys (parts.getD 0 ""), newKey key)] else []) ++
  (if parts.length > 2 ∧ parts.getD 0 "" ≠ MESSAGE_KEY then
    [(guildKeys (parts.getD 1 ""), newKey key)]
  else if parts.length > 2 then
    [(channelKeys (parts.getD 1 ""), newKey key)]
  else [])

def setAll (J : Json T V) (orders : Orders) (keys : List (String × Item)) : Api T Unit := do
  let members := (keys.flatMap fun kv => setMembers kv.1).foldl pushMember []
  let keys := keys.map fun kv => (newKey kv.1, J.text kv.2)
  if keys.isEmpty then
    return ()
  redis (.mset keys)
  (orders.members members).forM fun kv => redis (.sadd kv.1 kv.2)

def set (J : Json T V) (orders : Orders) (key : String) (value : Item) : Api T Unit :=
  setAll J orders [(key, value)]

/-- `value as i64`, for an unsigned 64-bit value. -/
def asI64 (value : UInt64) : ℤ := value.toInt64.toInt

/-- The field a key and its time to live give: the deadline, as text. -/
def deadlineField (J : Json T V) (now : FormattedDateTime) (kv : String × UInt64) :
    Api T (String × T) :=
  match now.add (milliseconds (asI64 kv.2)) with
  | some timestamp => pure (kv.1, J.text (.timestamp timestamp))
  | none => throw .panic

def expireAll (J : Json T V) (now : FormattedDateTime) (keys : List (String × UInt64)) :
    Api T Unit := do
  let keys ← keys.mapM (deadlineField J now)
  if keys.isEmpty then
    return ()
  redis (.hset EXPIRY_KEYS keys)

def expire (J : Json T V) (now : FormattedDateTime) (key : String) (expiry : UInt64) :
    Api T Unit :=
  expireAll J now [(key, expiry)]

/-- What `del_all` pushes into `members` for a key. -/
def delMembers (key : String) : List (String × String) :=
  let parts := split key
  (if parts.length > 1 then [(kindKeys (parts.getD 0 ""), newKey key)] else []) ++
  (if parts.length > 2 then
    if parts.getD 0 "" ≠ MESSAGE_KEY then
      [(guildKeys (parts.getD 1 ""), newKey key)]
    else
      [(channelKeys (parts.getD 1 ""), newKey key)]
  else [])

def delAll (orders : Orders) (keys : List String) : Api T Unit := do
  let members := (keys.flatMap delMembers).foldl pushMember []
  let keys := keys.map newKey
  if keys.isEmpty then
    return ()
  redis (.del keys)
  (orders.members members).forM fun kv => redis (.srem kv.1 kv.2)

def del (orders : Orders) (key : String) : Api T Unit := delAll orders [key]

def delHashmap (key : String) (keys : List String) : Api T Unit := do
  if keys.isEmpty then
    return ()
  redis (.hdel key keys)

/-! ## The expiry sweep -/

/-- The keys of the expiry hash whose deadline lies before `now`; a deadline that does not decode
is skipped. -/
def expiredKeys (J : Json T V) (now : FormattedDateTime) (hashmap : List (String × T)) :
    List String :=
  hashmap.filterMap fun kv => match J.timestamp kv.2 with
    | .ok timestamp => if timestamp.sub now < 0 then some kv.1 else none
    | .error _ => none

/-- Delete keys, then their deadlines. Errors are only logged. -/
def deleteExpired (orders : Orders) (keys : List String) : Prog (interface T) Unit := do
  match ← ExceptT.run (delAll orders keys) with
  | .ok () =>
    let _ ← ExceptT.run (delHashmap (T := T) EXPIRY_KEYS keys)
    return ()
  | .error _ => return ()

/-- The part of one round of `run_jobs` that deletes the expired keys. -/
def sweep (J : Json T V) (env : Env) : Prog (interface T) Unit := do
  match ← ExceptT.run (getHashmap env.orders EXPIRY_KEYS) with
  | .ok hashmap => deleteExpired env.orders (expiredKeys J env.now hashmap)
  | .error _ => return ()

/-! ## Events -/

def clearGuild (decode : T → Except SimdJsonError α) (orders : Orders) (guildId : Id .guild) :
    Api T (Option α) := do
  let members ← attempt (getMembers orders (guildKeys (toString guildId)))
  match members with
  | .ok members => delAll orders members
  | .error _ => pure ()
  let guild ← attempt (get decode (guildKey guildId))
  match guild with
  | .ok guild => do
    del orders (guildKey guildId)
    return guild
  | .error _ => return none

/-- The items a guild create event stores: the six lists of the guild, each filtered by its
switch, and the guild without them. -/
def guildItems (cfg : Config) (botId : Id .user) (data : Guild) : List (String × Item) :=
  data.channels.map (fun channel =>
    (channelKey (some data.id) channel.id, .channel { channel with guildId := some data.id })) ++
  data.roles.map (fun role => (roleKey data.id role.id, .role role)) ++
  (data.emojis.filter fun _ => cfg.stateEmoji).map
    (fun emoji => (emojiKey data.id emoji.id, .emoji emoji)) ++
  (data.voiceStates.filter fun _ => cfg.stateVoice).map
    (fun voice => (voiceKey data.id voice.userId, .voice voice)) ++
  (data.members.filter fun member => cfg.stateMember || member.user.id = botId).map
    (fun member => (memberKey data.id member.user.id, .member member)) ++
  (data.presences.filter fun _ => cfg.statePresence).map
    (fun presence => (presenceKey data.id presence.userId, .presence presence)) ++
  [(guildKey data.id, .guild { data with
    channels := [], roles := [], emojis := [], voiceStates := [], members := [], presences := [] })]

/-- The cached member after a member update. -/
def MemberUpdate.merge (data : MemberUpdate) (member : Member) : Member :=
  { member with
    joinedAt := data.joinedAt
    nick := data.nick
    premiumSince := data.premiumSince
    roles := data.roles
    user := data.user }

/-- The cached message after a message update: the fields the update carries are replaced. -/
def MessageUpdate.merge (data : MessageUpdate) (message : Message) : Message :=
  { message with
    attachments := data.attachments.getD message.attachments
    content := data.content.getD message.content
    editedTimestamp := data.editedTimestamp.or message.editedTimestamp
    embeds := data.embeds.getD message.embeds
    mentionEveryone := data.mentionEveryone.getD message.mentionEveryone
    mentionRoles := data.mentionRoles.getD message.mentionRoles
    mentions := data.mentions.getD message.mentions
    pinned := data.pinned.getD message.pinned
    timestamp := data.timestamp.getD message.timestamp
    tts := data.tts.getD message.tts }

/-- `old = get(conn, key)`, when the old state is wanted. -/
def getOld (J : Json T V) (cfg : Config) (key : String) : Api T (Option V) :=
  if cfg.stateOld then get J.value key else pure none

/-- `old = Some(to_value(item))`, when the old state is wanted. -/
def oldValue (J : Json T V) (cfg : Config) (item : Item) : Api T (Option V) :=
  if cfg.stateOld then do return some (← orSimdJson (toValue J item)) else pure none

def update (J : Json T V) (cfg : Config) (botId : Id .user) (env : Env) (event : Event) :
    Api T (Option V) :=
  match event with
  | .channelCreate data => do
    set J env.orders (channelKey data.guildId data.id) (.channel data)
    return none
  | .channelDelete data => do
    let key := channelKey data.guildId data.id
    let old ← getOld J cfg key
    del env.orders key
    return old
  | .channelPinsUpdate data => do
    let key := channelKey data.guildId data.channelId
    match ← get J.channel key with
    | some channel =>
      set J env.orders key (.channel { channel with lastPinTimestamp := data.lastPinTimestamp })
      return none
    | none => return none
  | .channelUpdate data => do
    let key := channelKey data.guildId data.id
    let old ← getOld J cfg key
    set J env.orders key (.channel data)
    return old
  | .guildCreate data => do
    let old ← clearGuild J.value env.orders data.id
    setAll J env.orders (guildItems cfg botId data)
    if cfg.stateMember then
      expireAll J env.now
        (data.members.map fun member => (memberKey data.id member.user.id, cfg.stateMemberTtl))
    return old
  | .guildDelete data => clearGuild J.value env.orders data.id
  | .guildEmojisUpdate data =>
    if cfg.stateEmoji then do
      let keys ← getMembers env.orders (guildKeys (toString data.guildId))
      let emojiKeys := keys.filter fun key => (split key).headD "" = EMOJI_KEY
      let emojis := (← getAll env.oneKey J.emoji emojiKeys).filterMap id
      delAll env.orders ((emojis.filter fun emoji => !data.emojis.any fun e => e.id = emoji.id).map
        fun emoji => emojiKey data.guildId emoji.id)
      setAll J env.orders
        (data.emojis.map fun emoji => (emojiKey data.guildId emoji.id, .emoji emoji))
      oldValue J cfg (.emojis emojis)
    else pure none
  | .guildUpdate data => do
    let key := guildKey data.id
    let old ← getOld J cfg key
    set J env.orders key (.partialGuild data)
    return old
  | .memberAdd data =>
    if cfg.stateMember then do
      let key := memberKey data.guildId data.user.id
      set J env.orders key (.member data)
      expire J env.now key cfg.stateMemberTtl
      return none
    else pure none
  | .memberRemove data => do
    let old ← if cfg.stateMember then do
        let key := memberKey data.guildId data.user.id
        let old ← getOld J cfg key
        del env.orders key
        pure old
      else pure none
    if cfg.statePresence then
      del env.orders (presenceKey data.guildId data.user.id)
    return old
  | .memberUpdate data =>
    if cfg.stateMember || data.user.id = botId then do
      let key := memberKey data.guildId data.user.id
      match ← get J.member key with
      | some member =>
        let old ← oldValue J cfg (.member member)
        set J env.orders key (.member (data.merge member))
        expire J env.now key cfg.stateMemberTtl
        return old
      | none => return none
    else pure none
  | .memberChunk data =>
    if cfg.stateMember then do
      setAll J env.orders
        (data.members.map fun member => (memberKey data.guildId member.user.id, .member member))
      expireAll J env.now
        (data.members.map fun member => (memberKey data.guildId member.user.id, cfg.stateMemberTtl))
      return none
    else pure none
  | .messageCreate data =>
    if cfg.stateMessage then do
      let key := messageKey data.channelId data.id
      set J env.orders key (.message data)
      expire J env.now key cfg.stateMessageTtl
      return none
    else pure none
  | .messageDelete data =>
    if cfg.stateMessage then do
      let key := messageKey data.channelId data.id
      let old ← getOld J cfg key
      del env.orders key
      return old
    else pure none
  | .messageDeleteBulk data =>
    if cfg.stateMessage then do
      let messageKeys := data.ids.map fun id => messageKey data.channelId id
      let messages := (← getAll env.oneKey J.message messageKeys).filterMap id
      delAll env.orders messageKeys
      oldValue J cfg (.messages messages)
    else pure none
  | .messageUpdate data =>
    if cfg.stateMessage then do
      let key := messageKey data.channelId data.id
      match ← get J.message key with
      | some message =>
        let old ← oldValue J cfg (.message message)
        set J env.orders key (.message (data.merge message))
        expire J env.now key cfg.stateMessageTtl
        return old
      | none => return none
    else pure none
  | .presenceUpdate data =>
    if cfg.statePresence then do
      let key := presenceKey data.guildId data.userId
      let old ← getOld J cfg key
      set J env.orders key (.presence data)
      return old
    else pure none
  | .ready data => do
    set J env.orders BOT_USER_KEY (.currentUser data.user)
    setAll J env.orders (data.guilds.map fun guild => (guildKey guild.id, .unavailableGuild guild))
    return none
  | .roleCreate data => do
    set J env.orders (roleKey data.guildId data.role.id) (.role data.role)
    return none
  | .roleDelete data => do
    let key := roleKey data.guildId data.roleId
    let old ← getOld J cfg key
    del env.orders key
    return old
  | .roleUpdate data => do
    let key := roleKey data.guildId data.role.id
    let old ← getOld J cfg key
    set J env.orders key (.role data.role)
    return old
  | .unavailableGuild data => do
    let old ← clearGuild J.value env.orders data.id
    set J env.orders (guildKey data.id) (.unavailableGuild data)
    return old
  | .userUpdate data => do
    let old ← getOld J cfg BOT_USER_KEY
    set J env.orders BOT_USER_KEY (.currentUser data)
    return old
  | .voiceStateUpdate data =>
    if cfg.stateVoice then
      match data.guildId with
      | some guildId => do
        let key := voiceKey guildId data.userId
        let old ← getOld J cfg key
        match data.channelId with
        | some _ => set J env.orders key (.voice data)
        | none => del env.orders key
        return old
      | none => pure none
    else pure none
  | _ => pure none

end TwilightDispatch
