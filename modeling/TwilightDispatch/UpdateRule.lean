import TwilightDispatch.CacheSpec

/-!
# Entities, and the rule of `update`

An entity is what a cached value describes. Its `key` is the key the code builds for it, its
`stored` the key it is found under, which differ for the channels of a guild.

`Closed.update` is the rule by which everything about `update` is proved that does not depend on
the order of its parts: `update` is put together from reads, batches of writes (with their
deadlines, for the kinds that expire) and deletions, so a program logic that these satisfy holds
of every event. The logics are invariants of complete runs, on a plain or a recording server, and
confinement to a region under interference.
-/

namespace TwilightDispatch

open Atomic Redis

variable {T V α : Type}

/-! ## Entities -/

/-- What a cached value describes. -/
inductive Entity where
  | botUser
  | guild (g : Id .guild)
  | channel (g : Option (Id .guild)) (c : Id .channel)
  | message (c : Id .channel) (m : Id .message)
  | role (g : Id .guild) (r : Id .role)
  | emoji (g : Id .guild) (e : Id .emoji)
  | member (g : Id .guild) (u : Id .user)
  | presence (g : Id .guild) (u : Id .user)
  | voice (g : Id .guild) (u : Id .user)
  deriving DecidableEq

/-- The key the code builds for an entity. -/
def Entity.key : Entity → String
  | botUser => BOT_USER_KEY
  | guild g => guildKey g
  | channel g c => channelKey g c
  | message c m => messageKey c m
  | role g r => roleKey g r
  | emoji g e => emojiKey g e
  | member g u => memberKey g u
  | presence g u => presenceKey g u
  | voice g u => voiceKey g u

/-- The key an entity is stored under. -/
def Entity.stored : Entity → String
  | channel _ c => privateChannelKey c
  | e => e.key

/-- The entity a value describes: its type and its own identifier. -/
def Entity.Holds : Entity → Item → Prop
  | botUser, .currentUser _ => True
  | guild g, .guild data => data.id = g
  | guild g, .partialGuild data => data.id = g
  | guild g, .unavailableGuild data => data.id = g
  | channel _ _, .channel _ => True
  | message _ _, .message _ => True
  | role _ r, .role data => data.id = r
  | emoji _ e, .emoji data => data.id = e
  | member _ u, .member data => data.user.id = u
  | presence _ u, .presence data => data.userId = u
  | voice _ u, .voice data => data.userId = u
  | _, _ => False

/-- The guild an entity is part of. -/
def Entity.guildOf : Entity → Option (Id .guild)
  | channel g _ => g
  | role g _ | emoji g _ | member g _ | presence g _ | voice g _ => some g
  | botUser | guild _ | message _ _ => none

/-- The first part of an entity's key. -/
def Entity.kind : Entity → String
  | botUser => BOT_USER_KEY
  | guild _ => GUILD_KEY
  | channel _ _ => CHANNEL_KEY
  | message _ _ => MESSAGE_KEY
  | role _ _ => ROLE_KEY
  | emoji _ _ => EMOJI_KEY
  | member _ _ => MEMBER_KEY
  | presence _ _ => PRESENCE_KEY
  | voice _ _ => VOICE_KEY

/-- The kind of a key: its first part. -/
def kindOf (key : String) : String := (split key).headD ""

section Keys

variable (e : Entity)

/-- An entity's key is rewritten to the key it is stored under. -/
@[simp] theorem newKey_key : newKey e.key = e.stored := by
  cases e with
  | channel g c =>
    cases g with
    | none => simp [newKey, Entity.key, Entity.stored, channelKey]
    | some g => simp [newKey, Entity.key, Entity.stored, channelKey, privateChannelKey]
  | botUser => simp [newKey, Entity.key, Entity.stored]
  | guild g => simp [newKey, Entity.key, Entity.stored]
  | message c m => simp [newKey, Entity.key, Entity.stored, MESSAGE_KEY, CHANNEL_KEY]
  | role g r => simp [newKey, Entity.key, Entity.stored, ROLE_KEY, CHANNEL_KEY]
  | emoji g r => simp [newKey, Entity.key, Entity.stored, EMOJI_KEY, CHANNEL_KEY]
  | member g r => simp [newKey, Entity.key, Entity.stored, MEMBER_KEY, CHANNEL_KEY]
  | presence g r => simp [newKey, Entity.key, Entity.stored, PRESENCE_KEY, CHANNEL_KEY]
  | voice g r => simp [newKey, Entity.key, Entity.stored, VOICE_KEY, CHANNEL_KEY]

@[simp] theorem kindOf_key : kindOf e.key = e.kind := by
  cases e with
  | channel g c => cases g <;> simp [kindOf, Entity.key, Entity.kind, channelKey]
  | _ => simp [kindOf, Entity.key, Entity.kind]

@[simp] theorem kindOf_stored : kindOf e.stored = e.kind := by
  cases e with
  | channel g c => simp [kindOf, Entity.stored, Entity.kind]
  | _ => exact kindOf_key _

end Keys

/-- The last value that a batch has for an entity. -/
theorem lastOf_part {β : Type} {J : Json T V} (l : List β) (entity : β → Entity) (wrap : β → Item) (e : Entity) :
    lastOf (storedPairs J (l.map fun b => ((entity b).key, wrap b))) e.stored =
      ((l.filter fun b => (entity b).stored = e.stored).getLast?).map fun b => J.text (wrap b) := by
  have hpairs : storedPairs J (l.map fun b => ((entity b).key, wrap b)) =
      l.map fun b => ((entity b).stored, J.text (wrap b)) := by
    unfold storedPairs
    rw [List.map_map]
    exact List.map_congr_left fun b _ => congrArg (·, J.text (wrap b)) (newKey_key (entity b))
  rw [hpairs, lastOf_map]

/-! ## What an event works on -/

/-- The entities an event names. Those it only finds in an index are not among them. -/
def Event.Touches : Event → Entity → Prop
  | channelCreate data, e => e = .channel data.guildId data.id
  | channelDelete data, e => e = .channel data.guildId data.id
  | channelPinsUpdate data, e => e = .channel data.guildId data.channelId
  | channelUpdate data, e => e = .channel data.guildId data.id
  | guildCreate data, e => e = .guild data.id ∨ e.guildOf = some data.id ∧
      ∀ g c, e = .channel g c → ∃ channel ∈ data.channels, channel.id = c
  | guildDelete data, e => e = .guild data.id
  | guildEmojisUpdate data, e => ∃ id, e = .emoji data.guildId id
  | guildUpdate data, e => e = .guild data.id
  | memberAdd data, e => e = .member data.guildId data.user.id
  | memberRemove data, e =>
      e = .member data.guildId data.user.id ∨ e = .presence data.guildId data.user.id
  | memberUpdate data, e => e = .member data.guildId data.user.id
  | memberChunk data, e => ∃ member ∈ data.members, e = .member data.guildId member.user.id
  | messageCreate data, e => e = .message data.channelId data.id
  | messageDelete data, e => e = .message data.channelId data.id
  | messageDeleteBulk data, e => ∃ id ∈ data.ids, e = .message data.channelId id
  | messageUpdate data, e => e = .message data.channelId data.id
  | presenceUpdate data, e => e = .presence data.guildId data.userId
  | ready data, e => e = .botUser ∨ ∃ guild ∈ data.guilds, e = .guild guild.id
  | roleCreate data, e => e = .role data.guildId data.role.id
  | roleDelete data, e => e = .role data.guildId data.roleId
  | roleUpdate data, e => e = .role data.guildId data.role.id
  | unavailableGuild data, e => e = .guild data.id
  | userUpdate _, e => e = .botUser
  | voiceStateUpdate data, e => ∃ g, data.guildId = some g ∧ e = .voice g data.userId
  | _, _ => False

/-- The guild whose index an event lists. -/
def Event.lists : Event → Option (Id .guild)
  | guildCreate data => some data.id
  | guildDelete data => some data.id
  | guildEmojisUpdate data => some data.guildId
  | unavailableGuild data => some data.id
  | _ => none

/-- Whether an event reads a list of keys. -/
def Event.readsMany : Event → Bool
  | guildEmojisUpdate _ | messageDeleteBulk _ => true
  | _ => false

/-- The guild an event clears. -/
def Event.clears : Event → Option (Id .guild)
  | guildCreate data => some data.id
  | guildDelete data => some data.id
  | unavailableGuild data => some data.id
  | _ => none

/-- What a program may work on: entities, guilds whose index it may list, and what it can rely on
to find there. -/
structure Scope where
  entity : Entity → Prop
  index : Id .guild → Prop
  listed : Id .guild → String → Prop

/-- An event stays in a scope. -/
structure Scope.Covers (scope : Scope) (event : Event) : Prop where
  entity : ∀ e, event.Touches e → scope.entity e
  index : ∀ g, event.lists = some g → scope.index g

/-- The configuration lets the entity be cached. -/
def Entity.Enabled (cfg : Config) (botId : Id .user) : Entity → Prop
  | message _ _ => cfg.stateMessage = true
  | emoji _ _ => cfg.stateEmoji = true
  | member _ u => cfg.stateMember = true ∨ u = botId
  | presence _ _ => cfg.statePresence = true
  | voice _ _ => cfg.stateVoice = true
  | botUser | guild _ | channel _ _ | role _ _ => True

/-- What an event works on under a configuration stays in a scope. -/
structure Scope.Admits (cfg : Config) (botId : Id .user) (scope : Scope) (event : Event) :
    Prop where
  entity : ∀ e, event.Touches e → e.Enabled cfg botId → scope.entity e
  index : ∀ g, event.lists = some g → scope.index g

theorem Scope.Covers.admits {cfg : Config} {botId : Id .user} {scope : Scope} {event : Event}
    (h : scope.Covers event) : Scope.Admits cfg botId scope event where
  entity e he _ := h.entity e he
  index := h.index

/-- The keys that carry a deadline. -/
def Expires (cfg : Config) (key : String) : Prop :=
  kindOf key = MESSAGE_KEY ∨ kindOf key = MEMBER_KEY ∧ cfg.stateMember = true

/-- The entities whose keys may carry a deadline. -/
def Entity.expirable : Entity → Bool
  | message _ _ | member _ _ => true
  | _ => false

theorem not_expires {cfg : Config} {e : Entity} (h : e.expirable = false) :
    ¬ Expires cfg e.key := by
  unfold Expires
  rw [kindOf_key]
  cases e with
  | message c m => cases h
  | member g u => cases h
  | _ => simp [Entity.kind, BOT_USER_KEY, GUILD_KEY, CHANNEL_KEY, MESSAGE_KEY, ROLE_KEY, EMOJI_KEY,
      MEMBER_KEY, PRESENCE_KEY, VOICE_KEY]

/-- The time to live of a key that carries a deadline. -/
def ttlOf (cfg : Config) (key : String) : UInt64 :=
  if kindOf key = MESSAGE_KEY then cfg.stateMessageTtl else cfg.stateMemberTtl

/-- A pair of the key built for an allowed entity and a value of that entity. -/
def Writes (ok : Entity → Prop) (kv : String × Item) : Prop :=
  ∃ e : Entity, ok e ∧ e.key = kv.1 ∧ e.Holds kv.2

/-- A key built for an allowed entity. -/
def Built (ok : Entity → Prop) (key : String) : Prop :=
  ∃ e : Entity, ok e ∧ e.key = key

/-- A key that may be read: it is built for an allowed entity, or it has been found in an index. -/
def Scope.Reads (scope : Scope) (key : String) : Prop :=
  Built scope.entity key ∨ ∃ g, scope.index g ∧ scope.listed g key

/-- The deadlines `exps` are those of the pairs `kvs`: every pair that must carry one has it, and
every deadline is that of a written member or message. -/
structure Refreshes (cfg : Config) (kvs : List (String × Item)) (exps : List (String × UInt64)) :
    Prop where
  covers : ∀ kv ∈ kvs, Expires cfg kv.1 → (kv.1, ttlOf cfg kv.1) ∈ exps
  written : ∀ e ∈ exps, e.1 ∈ kvs.map Prod.fst
  ttl : ∀ e ∈ exps, e.2 = ttlOf cfg e.1
  kind : ∀ e ∈ exps, kindOf e.1 = MESSAGE_KEY ∨ kindOf e.1 = MEMBER_KEY

/-! ## The rule -/

section Rule

variable {P : {α : Type} → Api T α → (α → Prop) → Prop} {J : Json T V} {cfg : Config} {env : Env}
  {botId : Id .user} {scope : Scope}

theorem logic_orSimdJson (hl : Logic P) (r : Except SimdJsonError α) :
    P (orSimdJson r) fun _ => True := by
  cases r with
  | ok a => exact hl.pure trivial
  | error err => exact hl.throw

/-- A read is one command. -/
theorem logic_get (hl : Logic P) {key : String} (hget : P (redis (.get key)) fun _ => True)
    (decode : T → Except SimdJsonError α) : P (get decode key) fun _ => True := by
  unfold get
  refine hl.andThen hget fun res => ?_
  cases res with
  | none => exact hl.pure trivial
  | some value => exact hl.andThen (logic_orSimdJson hl _) fun _ => hl.pure trivial

/-- A program logic that holds of the operations an event is put together from. -/
structure Closed (P : {α : Type} → Api T α → (α → Prop) → Prop) (J : Json T V) (cfg : Config)
    (env : Env) (scope : Scope) : Prop extends Logic P where
  get : ∀ key, scope.Reads key → P (redis (.get key)) fun _ => True
  mget : ∀ keys, (∀ key ∈ keys, scope.Reads key) → P (redis (.mget keys)) fun _ => True
  members : ∀ g, scope.index g → P (getMembers env.orders (guildKeys (toString g)))
    fun keys => ∀ key ∈ keys, scope.listed g key
  set : ∀ kvs, (∀ kv ∈ kvs, Writes scope.entity kv ∧ ¬ Expires cfg kv.1) →
    P (setAll J env.orders kvs) fun _ => True
  setExpire : ∀ kvs exps, (∀ kv ∈ kvs, Writes scope.entity kv) → Refreshes cfg kvs exps →
    P (setAll J env.orders kvs >>= fun _ => expireAll J env.now exps) fun _ => True
  del : ∀ keys, (∀ key ∈ keys, Built scope.entity key) → P (delAll env.orders keys) fun _ => True

namespace Closed

variable (h : Closed P J cfg env scope)
include h

/-! ### Reads -/

theorem orSimdJson (r : Except SimdJsonError α) :
    P (TwilightDispatch.orSimdJson r) fun _ => True := logic_orSimdJson h.toLogic r

theorem oldValue (item : Item) : P (TwilightDispatch.oldValue J cfg item) fun _ => True :=
  h.ite (fun _ => h.andThen (h.orSimdJson _) fun _ => h.pure trivial) fun _ => h.pure trivial

theorem attemptOf {x : Api T α} {Q : α → Prop} (hx : P x Q) :
    P (TwilightDispatch.attempt x) fun r => ∀ a, r = .ok a → Q a := by
  unfold TwilightDispatch.attempt
  refine h.bind (h.attempt hx) fun r hr => ?_
  rcases r with (err | _) | a
  · exact h.pure nofun
  · exact h.throw
  · exact h.pure fun b hb => hr b (by rw [Except.ok.inj hb])

theorem getEntity (decode : T → Except SimdJsonError α) (e : Entity) (he : scope.entity e) :
    P (TwilightDispatch.get decode e.key) fun _ => True :=
  logic_get h.toLogic (h.get e.key (.inl ⟨e, he, rfl⟩)) decode

theorem getOld (e : Entity) (he : scope.entity e) :
    P (TwilightDispatch.getOld J cfg e.key) fun _ => True :=
  h.ite (fun _ => h.getEntity _ e he) fun _ => h.pure trivial

theorem getKeys (oneKey : OneKey) {keys : List String} (hkeys : ∀ key ∈ keys, scope.Reads key) :
    P (TwilightDispatch.getKeys oneKey keys) fun _ => True := by
  unfold TwilightDispatch.getKeys
  split
  · rename_i key
    refine h.andThen (h.get key (hkeys key List.mem_cons_self)) fun value => ?_
    cases value with
    | none => exact h.pure trivial
    | some _ => exact h.throw
  · exact h.mget _ hkeys

theorem getAll (oneKey : OneKey) (decode : T → Except SimdJsonError α) {keys : List String}
    (hkeys : ∀ key ∈ keys, scope.Reads key) :
    P (TwilightDispatch.getAll oneKey decode keys) fun _ => True := by
  refine h.ite (fun _ => h.pure trivial) fun _ => ?_
  refine h.andThen (h.getKeys oneKey hkeys) fun res => ?_
  refine h.weaken (h.mapM (R := fun _ _ => True) fun option _ => ?_) fun _ _ => trivial
  cases option with
  | none => exact h.pure trivial
  | some value => exact h.andThen (h.orSimdJson _) fun _ => h.pure trivial

/-! ### Writes of one entity -/

theorem setEntity (e : Entity) (i : Item) (he : scope.entity e) (hi : e.Holds i)
    (hx : ¬ Expires cfg e.key) :
    P (TwilightDispatch.set J env.orders e.key i) fun _ => True := by
  refine h.set _ fun kv hkv => ?_
  obtain rfl := List.mem_singleton.mp hkv
  exact ⟨⟨e, he, rfl, hi⟩, hx⟩

theorem delEntity (e : Entity) (he : scope.entity e) :
    P (TwilightDispatch.del env.orders e.key) fun _ => True := by
  refine h.del _ fun key hkey => ?_
  obtain rfl := List.mem_singleton.mp hkey
  exact ⟨e, he, rfl⟩

/-- A batch, its deadlines, and what follows. -/
theorem setExpireThen {kvs : List (String × Item)} {exps : List (String × UInt64)}
    {x : Api T α} {Q : α → Prop} (hkvs : ∀ kv ∈ kvs, Writes scope.entity kv)
    (hexps : Refreshes cfg kvs exps) (hx : P x Q) :
    P (do setAll J env.orders kvs; expireAll J env.now exps; x) Q := by
  have hb := h.andThen (h.setExpire kvs exps hkvs hexps) fun _ => hx
  rwa [bind_assoc] at hb

/-- One member or message, its deadline, and what follows. -/
theorem setExpireEntity (e : Entity) (i : Item) {x : Api T α} {Q : α → Prop}
    (he : scope.entity e) (hi : e.Holds i)
    (hk : kindOf e.key = MESSAGE_KEY ∨ kindOf e.key = MEMBER_KEY) (hx : P x Q) :
    P (do
      TwilightDispatch.set J env.orders e.key i
      expire J env.now e.key (ttlOf cfg e.key)
      x) Q := by
  refine h.setExpireThen (fun kv hkv => ?_) ⟨?_, ?_, ?_, ?_⟩ hx
  · obtain rfl := List.mem_singleton.mp hkv
    exact ⟨e, he, rfl, hi⟩
  · intro kv hkv _
    obtain rfl := List.mem_singleton.mp hkv
    exact List.mem_singleton_self _
  all_goals
    intro x hx
    obtain rfl := List.mem_singleton.mp hx
  · exact List.mem_singleton_self _
  · rfl
  · exact hk

/-- Writes of entities of kinds that do not expire. -/
theorem setEntities {β : Type} (l : List β) (e : β → Entity) (i : β → Item)
    (he : ∀ b ∈ l, scope.entity (e b)) (hi : ∀ b ∈ l, (e b).Holds (i b))
    (hx : ∀ b ∈ l, ¬ Expires cfg (e b).key) :
    P (setAll J env.orders (l.map fun b => ((e b).key, i b))) fun _ => True := by
  refine h.set _ fun kv hkv => ?_
  obtain ⟨b, hb, rfl⟩ := List.mem_map.mp hkv
  exact ⟨⟨e b, he b hb, rfl, hi b hb⟩, hx b hb⟩

end Closed

/-! ### Guild items -/

theorem writes_guildItems {data : Guild} {ok : Entity → Prop}
    (hd : ∀ e, (Event.guildCreate data).Touches e → e.Enabled cfg botId → ok e) :
    ∀ kv ∈ guildItems cfg botId data, Writes ok kv := by
  intro kv hkv
  have hin : ∀ e : Entity, e.guildOf = some data.id → e.kind ≠ CHANNEL_KEY →
      e.Enabled cfg botId → ok e := by
    refine fun e hg hk => hd e (Or.inr ⟨hg, ?_⟩)
    rintro g c rfl
    exact absurd rfl hk
  unfold guildItems at hkv
  simp only [List.mem_append, List.mem_map, List.mem_filter, List.mem_singleton] at hkv
  rcases hkv with (((((⟨x, hx, rfl⟩ | ⟨x, hx, rfl⟩) | ⟨x, hx, rfl⟩) | ⟨x, hx, rfl⟩) |
    ⟨x, hx, rfl⟩) | ⟨x, hx, rfl⟩) | rfl
  · refine ⟨.channel (some data.id) x.id, hd _ (Or.inr ⟨rfl, ?_⟩) trivial, rfl, trivial⟩
    rintro g c he
    exact ⟨x, hx, (Entity.channel.inj he).2⟩
  · exact ⟨.role data.id x.id, hin _ rfl (show ROLE_KEY ≠ _ by decide) trivial, rfl, rfl⟩
  · exact ⟨.emoji data.id x.id, hin _ rfl (show EMOJI_KEY ≠ _ by decide) hx.2, rfl, rfl⟩
  · exact ⟨.voice data.id x.userId, hin _ rfl (show VOICE_KEY ≠ _ by decide) hx.2, rfl, rfl⟩
  · exact ⟨.member data.id x.user.id, hin _ rfl (show MEMBER_KEY ≠ _ by decide)
      (by simpa [Entity.Enabled] using hx.2), rfl, rfl⟩
  · exact ⟨.presence data.id x.userId, hin _ rfl (show PRESENCE_KEY ≠ _ by decide) hx.2, rfl, rfl⟩
  · exact ⟨.guild data.id, hd _ (Or.inl rfl) trivial, rfl, rfl⟩

/-- Among the items of a guild only the members expire, and all of them are stored when they do. -/
theorem guildItems_expires {data : Guild} {kv : String × Item}
    (hkv : kv ∈ guildItems cfg botId data) (hx : Expires cfg kv.1) :
    cfg.stateMember = true ∧ ∃ member ∈ data.members, kv.1 = memberKey data.id member.user.id := by
  unfold guildItems at hkv
  simp only [List.mem_append, List.mem_map, List.mem_filter, List.mem_singleton] at hkv
  have hno : ∀ e : Entity, e.expirable = false → e.key ≠ kv.1 :=
    fun e he hk => not_expires he (hk ▸ hx)
  rcases hkv with (((((⟨x, hx', rfl⟩ | ⟨x, hx', rfl⟩) | ⟨x, hx', rfl⟩) | ⟨x, hx', rfl⟩) |
    ⟨x, hx', rfl⟩) | ⟨x, hx', rfl⟩) | rfl
  · exact absurd rfl (hno (.channel (some data.id) x.id) rfl)
  · exact absurd rfl (hno (.role data.id x.id) rfl)
  · exact absurd rfl (hno (.emoji data.id x.id) rfl)
  · exact absurd rfl (hno (.voice data.id x.userId) rfl)
  · have hk : kindOf (memberKey data.id x.user.id) = MEMBER_KEY :=
      kindOf_key (.member data.id x.user.id)
    rcases hx with h | ⟨_, h⟩
    · rw [hk] at h
      exact absurd h (by decide)
    · exact ⟨h, x, hx'.1, rfl⟩
  · exact absurd rfl (hno (.presence data.id x.userId) rfl)
  · exact absurd rfl (hno (.guild data.id) rfl)

theorem ttlOf_memberKey (g : Id .guild) (u : Id .user) :
    ttlOf cfg (memberKey g u) = cfg.stateMemberTtl := by
  unfold ttlOf
  rw [show kindOf (memberKey g u) = MEMBER_KEY from kindOf_key (.member g u)]
  exact if_neg (by decide)

theorem ttlOf_messageKey (c : Id .channel) (m : Id .message) :
    ttlOf cfg (messageKey c m) = cfg.stateMessageTtl := by
  unfold ttlOf
  rw [show kindOf (messageKey c m) = MESSAGE_KEY from kindOf_key (.message c m)]
  exact if_pos rfl

/-- The deadlines a batch of members is given. -/
theorem refreshes_members {kvs : List (String × Item)} {g : Id .guild} {members : List Member}
    (hsub : ∀ member ∈ members, memberKey g member.user.id ∈ kvs.map Prod.fst)
    (hcov : ∀ kv ∈ kvs, Expires cfg kv.1 →
      ∃ member ∈ members, kv.1 = memberKey g member.user.id) :
    Refreshes cfg kvs
      (members.map fun member => (memberKey g member.user.id, cfg.stateMemberTtl)) where
  covers kv hkv hx := by
    obtain ⟨member, hm, hk⟩ := hcov kv hkv hx
    rw [hk, ttlOf_memberKey]
    exact List.mem_map_of_mem hm
  written e he := by
    obtain ⟨member, hm, rfl⟩ := List.mem_map.mp he
    exact hsub member hm
  ttl e he := by
    obtain ⟨member, hm, rfl⟩ := List.mem_map.mp he
    exact (ttlOf_memberKey _ _).symm
  kind e he := by
    obtain ⟨member, hm, rfl⟩ := List.mem_map.mp he
    exact Or.inr (kindOf_key (.member g member.user.id))

theorem guildItems_refreshes {data : Guild} (hcfg : cfg.stateMember = true) :
    Refreshes cfg (guildItems cfg botId data)
      (data.members.map fun member => (memberKey data.id member.user.id, cfg.stateMemberTtl)) := by
  refine refreshes_members (fun member hm => ?_) fun kv hkv hx => (guildItems_expires hkv hx).2
  refine List.mem_map.mpr ⟨(memberKey data.id member.user.id, .member member), ?_, rfl⟩
  unfold guildItems
  simp only [List.mem_append, List.mem_map, List.mem_filter]
  exact Or.inl (Or.inl (Or.inr ⟨member, ⟨hm, by simp [hcfg]⟩, rfl⟩))

/-! ### The arms -/

namespace Closed

variable (h : Closed P J cfg env scope)
include h

/-- Clearing a guild deletes what the guild's index lists, then the guild. -/
theorem clearGuild (decode : T → Except SimdJsonError α) (g : Id .guild)
    (hg : scope.entity (.guild g)) (hi : scope.index g)
    (hdrop : ∀ keys, (∀ key ∈ keys, scope.listed g key) →
      P (delAll env.orders keys) fun _ => True) :
    P (TwilightDispatch.clearGuild decode env.orders g) fun _ => True := by
  unfold TwilightDispatch.clearGuild
  refine h.bind (h.attemptOf (h.members g hi)) fun members hmembers => ?_
  rcases members with err | members
  on_goal 2 => refine h.andThen (hdrop members (hmembers members rfl)) fun _ => ?_
  -- the guild is read and deleted either way
  all_goals
    refine h.bind (h.attemptOf (h.getEntity decode (.guild g) hg)) fun guild _ => ?_
    cases guild with
    | ok guild => exact h.andThen (h.delEntity (.guild g) hg) fun _ => h.pure trivial
    | error err => exact h.pure trivial

/-- What follows the clearing in a guild create event. -/
theorem guildCreateItems {data : Guild}
    (hd : ∀ e, (Event.guildCreate data).Touches e → e.Enabled cfg botId → scope.entity e)
    (old : Option V) :
    P (do
      setAll J env.orders (guildItems cfg botId data)
      if cfg.stateMember then
        expireAll J env.now
          (data.members.map fun member => (memberKey data.id member.user.id, cfg.stateMemberTtl))
      return old) fun _ => True := by
  by_cases hm : cfg.stateMember = true
  · rw [if_pos hm]
    exact h.setExpireThen (writes_guildItems hd) (guildItems_refreshes hm) (h.pure trivial)
  · rw [if_neg hm]
    exact h.andThen (h.set _ fun kv hkv => ⟨writes_guildItems hd kv hkv, fun hx =>
      hm (guildItems_expires hkv hx).1⟩) fun _ => h.pure trivial

/-- **The rule of `update`.** A logic that holds of the operations holds of every event in its
scope, if it holds of the events that clear a guild. -/
theorem update {event : Event} (he : Scope.Admits cfg botId scope event)
    (hclear : event.clears ≠ none → P (TwilightDispatch.update J cfg botId env event) fun _ => True) :
    P (TwilightDispatch.update J cfg botId env event) fun _ => True := by
  cases event with
  | guildCreate data => exact hclear nofun
  | guildDelete data => exact hclear nofun
  | unavailableGuild data => exact hclear nofun
  | channelCreate data =>
    exact h.andThen (h.setEntity (.channel _ _) (.channel data) (he.entity _ rfl trivial) trivial
      (not_expires rfl)) fun _ => h.pure trivial
  | channelDelete data =>
    exact h.andThen (h.getOld (.channel _ _) (he.entity _ rfl trivial)) fun _ =>
      h.andThen (h.delEntity (.channel _ _) (he.entity _ rfl trivial)) fun _ => h.pure trivial
  | channelPinsUpdate data =>
    refine h.andThen (h.getEntity J.channel (.channel _ _) (he.entity _ rfl trivial)) fun channel => ?_
    cases channel with
    | none => exact h.pure trivial
    | some channel =>
      exact h.andThen (h.setEntity (.channel _ _) (.channel _) (he.entity _ rfl trivial) trivial
        (not_expires rfl)) fun _ => h.pure trivial
  | channelUpdate data =>
    exact h.andThen (h.getOld (.channel _ _) (he.entity _ rfl trivial)) fun _ =>
      h.andThen (h.setEntity (.channel _ _) (.channel data) (he.entity _ rfl trivial) trivial
        (not_expires rfl)) fun _ => h.pure trivial
  | guildEmojisUpdate data =>
    have hindex := he.index _ rfl
    refine h.ite (fun hen => ?_) fun _ => h.pure trivial
    have hemoji : ∀ id, scope.entity (.emoji data.guildId id) := fun id => he.entity _ ⟨id, rfl⟩ hen
    refine h.bind (h.members _ hindex) fun keys hkeys => ?_
    refine h.andThen (h.getAll env.oneKey J.emoji fun key hkey =>
      Or.inr ⟨_, hindex, hkeys key (List.mem_of_mem_filter hkey)⟩) fun emojis => ?_
    refine h.andThen ?_ fun _ => h.andThen ?_ fun _ => h.oldValue _
    · refine h.del _ fun key hkey => ?_
      obtain ⟨emoji, _, rfl⟩ := List.mem_map.mp hkey
      exact ⟨.emoji data.guildId emoji.id, hemoji _, rfl⟩
    · exact h.setEntities data.emojis (fun e => .emoji data.guildId e.id) (fun e => .emoji e)
        (fun _ _ => hemoji _) (fun _ _ => rfl) fun _ _ => not_expires rfl
  | guildUpdate data =>
    exact h.andThen (h.getOld (.guild _) (he.entity _ rfl trivial)) fun _ =>
      h.andThen (h.setEntity (.guild data.id) (.partialGuild data) (he.entity _ rfl trivial) rfl
        (not_expires rfl)) fun _ => h.pure trivial
  | memberAdd data =>
    refine h.ite (fun hen => ?_) fun _ => h.pure trivial
    have hset := h.setExpireEntity (.member data.guildId data.user.id) (.member data)
      (he.entity _ rfl (.inl hen)) rfl (Or.inr (kindOf_key _))
      (h.pure (a := (none : Option V)) (Q := fun _ => True) trivial)
    rwa [Entity.key, ttlOf_memberKey] at hset
  | memberRemove data =>
    have hpresence : ∀ old : Option V, P (do
        if cfg.statePresence then
          TwilightDispatch.del env.orders (presenceKey data.guildId data.user.id)
        return old : Api T (Option V)) fun _ => True := by
      intro old
      refine h.ite (fun hen => ?_) fun _ => h.pure trivial
      exact h.andThen (h.delEntity (.presence _ _) (he.entity _ (Or.inr rfl) hen)) fun _ =>
        h.pure trivial
    refine h.ite (fun hen => ?_) fun _ => hpresence none
    have hmember : scope.entity (.member data.guildId data.user.id) :=
      he.entity _ (Or.inl rfl) (.inl hen)
    exact h.andThen (h.getOld (.member _ _) hmember) fun old =>
      h.andThen (h.delEntity (.member _ _) hmember) fun _ => hpresence old
  | memberUpdate data =>
    refine h.ite (fun hen => ?_) fun _ => h.pure trivial
    have hmember : scope.entity (.member data.guildId data.user.id) :=
      he.entity _ rfl (by simpa [Entity.Enabled] using hen)
    refine h.andThen (h.getEntity J.member (.member _ _) hmember) fun member => ?_
    cases member with
    | none => exact h.pure trivial
    | some member =>
      refine h.andThen (h.oldValue _) fun old => ?_
      have hset := h.setExpireEntity (.member data.guildId data.user.id)
        (.member (data.merge member)) hmember rfl (Or.inr (kindOf_key _))
        (h.pure (a := old) (Q := fun _ => True) trivial)
      rwa [Entity.key, ttlOf_memberKey] at hset
  | memberChunk data =>
    refine h.ite (fun hm => ?_) fun _ => h.pure trivial
    refine h.setExpireThen (fun kv hkv => ?_) (refreshes_members (fun member hmem => ?_) ?_)
      (h.pure trivial)
    · obtain ⟨member, hmem, rfl⟩ := List.mem_map.mp hkv
      exact ⟨.member data.guildId member.user.id, he.entity _ ⟨member, hmem, rfl⟩ (.inl hm), rfl, rfl⟩
    · rw [List.map_map]
      exact List.mem_map_of_mem hmem
    · intro kv hkv _
      obtain ⟨member, hmem, rfl⟩ := List.mem_map.mp hkv
      exact ⟨member, hmem, rfl⟩
  | messageCreate data =>
    refine h.ite (fun hen => ?_) fun _ => h.pure trivial
    have hset := h.setExpireEntity (.message data.channelId data.id) (.message data)
      (he.entity _ rfl hen) trivial (Or.inl (kindOf_key _))
      (h.pure (a := (none : Option V)) (Q := fun _ => True) trivial)
    rwa [Entity.key, ttlOf_messageKey] at hset
  | messageDelete data =>
    refine h.ite (fun hen => ?_) fun _ => h.pure trivial
    exact h.andThen (h.getOld (.message _ _) (he.entity _ rfl hen)) fun _ =>
      h.andThen (h.delEntity (.message _ _) (he.entity _ rfl hen)) fun _ => h.pure trivial
  | messageDeleteBulk data =>
    refine h.ite (fun hen => ?_) fun _ => h.pure trivial
    have hbuilt : ∀ key ∈ data.ids.map fun id => messageKey data.channelId id,
        Built scope.entity key := by
      intro key hkey
      obtain ⟨id, hid, rfl⟩ := List.mem_map.mp hkey
      exact ⟨.message data.channelId id, he.entity _ ⟨id, hid, rfl⟩ hen, rfl⟩
    refine h.andThen (h.getAll env.oneKey J.message fun key hkey => Or.inl (hbuilt key hkey)) fun _ => ?_
    exact h.andThen (h.del _ hbuilt) fun _ => h.oldValue _
  | messageUpdate data =>
    refine h.ite (fun hen => ?_) fun _ => h.pure trivial
    have hmessage : scope.entity (.message data.channelId data.id) := he.entity _ rfl hen
    refine h.andThen (h.getEntity J.message (.message _ _) hmessage) fun message => ?_
    cases message with
    | none => exact h.pure trivial
    | some message =>
      refine h.andThen (h.oldValue _) fun old => ?_
      have hset := h.setExpireEntity (.message data.channelId data.id)
        (.message (data.merge message)) hmessage trivial (Or.inl (kindOf_key _))
        (h.pure (a := old) (Q := fun _ => True) trivial)
      rwa [Entity.key, ttlOf_messageKey] at hset
  | presenceUpdate data =>
    refine h.ite (fun hen => ?_) fun _ => h.pure trivial
    exact h.andThen (h.getOld (.presence _ _) (he.entity _ rfl hen)) fun _ =>
      h.andThen (h.setEntity (.presence data.guildId data.userId) (.presence data)
        (he.entity _ rfl hen) rfl (not_expires rfl)) fun _ => h.pure trivial
  | ready data =>
    refine h.andThen (h.setEntity .botUser (.currentUser data.user) (he.entity _ (Or.inl rfl) trivial)
      trivial (not_expires rfl)) fun _ => h.andThen ?_ fun _ => h.pure trivial
    exact h.setEntities data.guilds (fun guild => .guild guild.id)
      (fun guild => .unavailableGuild guild)
      (fun guild hguild => he.entity _ (Or.inr ⟨guild, hguild, rfl⟩) trivial) (fun _ _ => rfl)
      fun _ _ => not_expires rfl
  | roleCreate data =>
    exact h.andThen (h.setEntity (.role data.guildId data.role.id) (.role data.role)
      (he.entity _ rfl trivial) rfl (not_expires rfl)) fun _ => h.pure trivial
  | roleDelete data =>
    exact h.andThen (h.getOld (.role _ _) (he.entity _ rfl trivial)) fun _ =>
      h.andThen (h.delEntity (.role _ _) (he.entity _ rfl trivial)) fun _ => h.pure trivial
  | roleUpdate data =>
    exact h.andThen (h.getOld (.role _ _) (he.entity _ rfl trivial)) fun _ =>
      h.andThen (h.setEntity (.role data.guildId data.role.id) (.role data.role)
        (he.entity _ rfl trivial) rfl (not_expires rfl)) fun _ => h.pure trivial
  | userUpdate data =>
    exact h.andThen (h.getOld .botUser (he.entity _ rfl trivial)) fun _ =>
      h.andThen (h.setEntity .botUser (.currentUser data) (he.entity _ rfl trivial) trivial
        (not_expires rfl)) fun _ => h.pure trivial
  | voiceStateUpdate data =>
    refine h.ite (fun hen => ?_) fun _ => h.pure trivial
    rcases data with ⟨_ | g, channelId, userId, extra⟩
    · exact h.pure trivial
    · have hvoice : scope.entity (.voice g userId) := he.entity _ ⟨g, rfl, rfl⟩ hen
      refine h.andThen (h.getOld (.voice _ _) hvoice) fun old => ?_
      cases channelId with
      | none => exact h.andThen (h.delEntity (.voice _ _) hvoice) fun _ => h.pure trivial
      | some c =>
        exact h.andThen (h.setEntity (.voice g userId) (.voice ⟨some g, some c, userId, extra⟩)
          hvoice rfl (not_expires rfl)) fun _ => h.pure trivial
  | _ => exact h.pure trivial

/-- A logic that also holds of the deletion of what an index lists holds of every event in its
scope. -/
theorem update_of_drop {event : Event} (he : Scope.Admits cfg botId scope event)
    (hdrop : ∀ g, scope.index g → ∀ keys, (∀ key ∈ keys, scope.listed g key) →
      P (delAll env.orders keys) fun _ => True) :
    P (TwilightDispatch.update J cfg botId env event) fun _ => True := by
  refine h.update he fun hc => ?_
  cases event with
  | guildCreate data =>
    have hindex := he.index _ rfl
    exact h.andThen (h.clearGuild _ _ (he.entity _ (Or.inl rfl) trivial) hindex (hdrop _ hindex)) fun old =>
      h.guildCreateItems he.entity old
  | guildDelete data =>
    have hindex := he.index _ rfl
    exact h.clearGuild _ _ (he.entity _ rfl trivial) hindex (hdrop _ hindex)
  | unavailableGuild data =>
    have hindex := he.index _ rfl
    have hguild : scope.entity (.guild data.id) := he.entity _ rfl trivial
    exact h.andThen (h.clearGuild _ _ hguild hindex (hdrop _ hindex)) fun old =>
      h.andThen (h.setEntity (.guild data.id) (.unavailableGuild data) hguild rfl
        (not_expires rfl)) fun _ => h.pure trivial
  | _ => exact absurd rfl hc

end Closed

end Rule

/-! ## Invariants of complete runs -/

/-- The scope that allows some entities and every index, and says nothing about what is listed. -/
def Scope.any (ok : Entity → Prop) : Scope where
  entity := ok
  index _ := True
  listed _ _ := True

/-- Commands that change nothing. -/
def IsRead : Cmd T → Prop
  | .get _ | .mget _ | .smembers _ | .scard _ | .hgetall _ => True
  | _ => False

/-- An invariant kept by reads, writes and deletions, on any server. -/
theorem Closed.of_keeps {S : Type} {exec : Exec (interface T) S} {Inv : S → Prop} {J : Json T V}
    {cfg : Config} {env : Env} {ok : Entity → Prop}
    (read : ∀ c : Cmd T, IsRead c → Keeps exec Inv (redis c) fun _ => True)
    (set : ∀ kvs, (∀ kv ∈ kvs, Writes ok kv ∧ ¬ Expires cfg kv.1) →
      Keeps exec Inv (setAll J env.orders kvs) fun _ => True)
    (setExpire : ∀ kvs exps, (∀ kv ∈ kvs, Writes ok kv) → Refreshes cfg kvs exps →
      Keeps exec Inv (setAll J env.orders kvs >>= fun _ => expireAll J env.now exps) fun _ => True)
    (del : ∀ keys, (∀ key ∈ keys, Built ok key) →
      Keeps exec Inv (delAll env.orders keys) fun _ => True) :
    Closed (fun x Q => Keeps exec Inv x Q) J cfg env (.any ok) where
  toLogic := Keeps.logic exec Inv
  get key _ := read (.get key) trivial
  mget keys _ := read (.mget keys) trivial
  members _ _ := (Keeps.logic exec Inv).andThen (read (.smembers _) trivial) fun _ =>
    (Keeps.logic exec Inv).pure fun _ _ => trivial
  set := set
  setExpire := setExpire
  del := del

end TwilightDispatch
