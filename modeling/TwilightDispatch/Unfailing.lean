import TwilightDispatch.Metrics
import TwilightDispatch.Shards
import TwilightDispatch.Texts

/-!
# Programs that succeed

Every program of the service reads only texts that decode, however many of them run at the same time, in
whatever order they take their steps and wherever they are abandoned. None of them ever fails, as long as
Redis does not and a list of one key is read as a list, and the old value of an update is one of its own
object (`service_succeeds`). However such a list is read, none of them panics (`ends_update`).
-/

namespace TwilightDispatch

open Atomic Redis

variable {T V α : Type} {J : Json T V} {cfg : Config} {botId : Id .user} {env : Env} {s : Store T}
  {orders : Orders}

/-! ## Updates -/

/-- The deadlines that are set at this time are dates. -/
structure Dated (cfg : Config) (now : FormattedDateTime) : Prop where
  member : now.add (milliseconds (asI64 cfg.stateMemberTtl)) ≠ none
  message : now.add (milliseconds (asI64 cfg.stateMessageTtl)) ≠ none

/-- What the old value of an event is a value of: its guild, the emojis or messages that were found, or
its object. -/
def Event.Recalls (event : Event) (i : Item) : Prop :=
  match event with
  | guildCreate data => (Entity.guild data.id).Holds i
  | guildDelete data => (Entity.guild data.id).Holds i
  | unavailableGuild data => (Entity.guild data.id).Holds i
  | guildEmojisUpdate _ => ∃ emojis, i = .emojis emojis
  | messageDeleteBulk _ => ∃ messages, i = .messages messages
  | event => ∃ e, event.object = some e ∧ e.Holds i

/-- The old value of an event is one that it recalls. -/
def Event.Returns (J : Json T V) (event : Event) (old : Option V) : Prop :=
  ∀ v, old = some v → ∃ i, event.Recalls i ∧ J.value (J.text i) = .ok v

theorem Event.returns_none (event : Event) : event.Returns J none := fun _ h => nomatch h

/-- What is read of an object, changed and written back. -/
theorem succeeds_refresh (hJ : J.Lawful) (e : Entity) {i i' : Item} (hi' : e.Holds i') {ttl : UInt64}
    (httl : env.now.add (milliseconds (asI64 ttl)) ≠ none) :
    Succeeds exec (Texts J) (do
      let old ← oldValue J cfg i
      set J env.orders e.key i'
      expire J env.now e.key ttl
      return old) fun old => ∀ v, old = some v → J.value (J.text i) = .ok v := by
  refine (succeeds_oldValue hJ i).bind fun old hold => ?_
  refine (succeeds_set e hi').andThen fun _ => ?_
  refine (succeeds_expireAll fun kv hkv => ?_).andThen fun _ => .pure hold
  obtain rfl := List.mem_singleton.mp hkv
  exact httl

/-- The items of a created guild are under the keys of what they are. -/
theorem succeeds_guildItems (data : Guild) :
    Succeeds exec (Texts J) (setAll J orders (guildItems cfg botId data)) fun _ => True :=
  succeeds_setAll (writes_guildItems fun _ _ _ => trivial)

section Arms

variable {event : Event}

/-- An arm without an old value. -/
theorem returns_of_none {x : Api T Unit} (hx : Succeeds exec (Texts J) x fun _ => True) :
    Succeeds exec (Texts J) (do x; return none) (event.Returns J) :=
  hx.andThen fun _ => .pure event.returns_none

/-- An arm that reads the old value of its object, writes, and returns it. -/
theorem returns_of_getOld (hJ : J.Lawful) {e : Entity} (hrecalls : ∀ i, e.Holds i → event.Recalls i)
    {x : Api T Unit} (hx : Succeeds exec (Texts J) x fun _ => True) :
    Succeeds exec (Texts J) (do
      let old ← getOld J cfg e.key
      x
      return old) (event.Returns J) := by
  refine (succeeds_getOld hJ e).bind fun old hold => hx.andThen fun _ => .pure fun v hv => ?_
  obtain ⟨i, hi, hread⟩ := hold v hv
  exact ⟨i, hrecalls i hi, hread⟩

/-- An arm that clears a guild, writes, and returns the old value of the guild. -/
theorem returns_of_clearGuild (hJ : J.Lawful) {g : Id .guild}
    (hrecalls : ∀ i, (Entity.guild g).Holds i → event.Recalls i)
    {x : Api T Unit} (hx : Succeeds exec (Texts J) x fun _ => True) :
    Succeeds exec (Texts J) (do
      let old ← clearGuild J.value orders g
      x
      return old) (event.Returns J) := by
  refine (succeeds_clearGuild hJ g).bind fun old hold => hx.andThen fun _ => .pure fun v hv => ?_
  obtain ⟨i, hi, hread⟩ := hold v hv
  exact ⟨i, hrecalls i hi, hread⟩

/-- An arm that reads its object, changes it and writes it back. -/
theorem returns_of_refresh (hJ : J.Lawful) {decode : T → Except SimdJsonError α} {e : Entity}
    {wrap : α → Item} (hdecode : ∀ a, decode (J.text (wrap a)) = .ok a)
    (hwrap : ∀ i, e.Holds i → ∃ a, i = wrap a) (hrecalls : ∀ i, e.Holds i → event.Recalls i)
    {f : α → α} (hf : ∀ a, e.Holds (wrap (f a))) {ttl : UInt64}
    (httl : env.now.add (milliseconds (asI64 ttl)) ≠ none) {x : Option α → Api T (Option V)}
    (hnone : x none = pure none) (hsome : ∀ a, x (some a) = (do
      let old ← oldValue J cfg (wrap a)
      set J env.orders e.key (wrap (f a))
      expire J env.now e.key ttl
      return old)) :
    Succeeds exec (Texts J) (get decode e.key >>= x) (event.Returns J) := by
  refine (succeeds_get fun t ht => ht.decodes hdecode hwrap).bind fun r hr => ?_
  cases r with
  | none =>
    rw [hnone]
    exact .pure event.returns_none
  | some a =>
    rw [hsome]
    refine (succeeds_refresh hJ e (hf a) httl).mono fun old hold v hv => ?_
    exact ⟨_, hrecalls _ (hr a rfl), hold v hv⟩

end Arms

theorem Entity.Holds.channel {g : Option (Id .guild)} {c : Id .channel} {i : Item}
    (h : (Entity.channel g c).Holds i) : ∃ data, i = .channel data := by
  cases i with
  | channel data => exact ⟨data, rfl⟩
  | _ => exact h.elim

theorem Entity.Holds.member {g : Id .guild} {u : Id .user} {i : Item}
    (h : (Entity.member g u).Holds i) : ∃ data, i = .member data := by
  cases i with
  | member data => exact ⟨data, rfl⟩
  | _ => exact h.elim

theorem Entity.Holds.message {c : Id .channel} {m : Id .message} {i : Item}
    (h : (Entity.message c m).Holds i) : ∃ data, i = .message data := by
  cases i with
  | message data => exact ⟨data, rfl⟩
  | _ => exact h.elim

theorem ends_guildEmojisUpdate (hJ : J.Lawful) (data : GuildEmojisUpdate) :
    Ends exec (Texts J) (ReadFailure env.oneKey) (update J cfg botId env (.guildEmojisUpdate data))
      (Event.Returns J (.guildEmojisUpdate data)) := by
  refine .ite (fun _ => ?_) fun _ => .of_succeeds (.pure (Event.returns_none _))
  refine (Ends.of_succeeds (succeeds_getMembers _)).bind fun keys _ => ?_
  refine (ends_getAll fun key hkey t ht => ht.emoji hJ ?_).bind fun emojis _ => .of_succeeds ?_
  · exact of_decide_eq_true (List.mem_filter.mp hkey).2
  refine (succeeds_delAll _).andThen fun _ => ?_
  refine (succeeds_setAll fun kv hkv => ?_).andThen fun _ => ?_
  · obtain ⟨emoji, -, rfl⟩ := List.mem_map.mp hkv
    exact ⟨.emoji data.guildId emoji.id, trivial, rfl, rfl⟩
  · exact (succeeds_oldValue hJ _).mono fun old hold v hv => ⟨_, ⟨_, rfl⟩, hold v hv⟩

theorem ends_messageDeleteBulk (hJ : J.Lawful) (data : MessageDeleteBulk) :
    Ends exec (Texts J) (ReadFailure env.oneKey) (update J cfg botId env (.messageDeleteBulk data))
      (Event.Returns J (.messageDeleteBulk data)) := by
  refine .ite (fun _ => ?_) fun _ => .of_succeeds (.pure (Event.returns_none _))
  refine (ends_getAll fun key hkey t ht => ?_).bind fun messages _ => .of_succeeds ?_
  · obtain ⟨id, -, rfl⟩ := List.mem_map.mp hkey
    obtain ⟨message, hmessage, -⟩ := TextOf.decodes (e := .message data.channelId id) hJ.message
      (fun i hi => hi.message) ht
    exact ⟨message, hmessage⟩
  refine (succeeds_delAll _).andThen fun _ => ?_
  exact (succeeds_oldValue hJ _).mono fun old hold v hv => ⟨_, ⟨_, rfl⟩, hold v hv⟩

/-- **An update succeeds**, where a list of keys is read as a list, and its old value is one that its event
recalls. -/
theorem succeeds_update (hJ : J.Lawful) (hdates : Dated cfg env.now) {event : Event}
    (hone : event.readsMany = true → env.oneKey = .list) :
    Succeeds exec (Texts J) (update J cfg botId env event) (event.Returns J) := by
  have hread (h : event.readsMany = true) (failure : Failure) : ¬ ReadFailure env.oneKey failure := by
    rintro ⟨hsingle, -⟩
    rw [hone h] at hsingle
    cases hsingle
  have hskip {x : Api T (Option V)} {p : Prop} [Decidable p]
      (hx : Succeeds exec (Texts J) x (event.Returns J)) :
      Succeeds exec (Texts J) (if p then x else pure none) (event.Returns J) :=
    .ite (fun _ => hx) fun _ => .pure event.returns_none
  have hexpire (keys : List String) {ttl : UInt64}
      (httl : env.now.add (milliseconds (asI64 ttl)) ≠ none) :
      Succeeds exec (Texts J) (expireAll J env.now (keys.map (·, ttl))) fun _ => True := by
    refine succeeds_expireAll fun kv hkv => ?_
    obtain ⟨key, -, rfl⟩ := List.mem_map.mp hkv
    exact httl
  cases event with
  | channelCreate data =>
    exact returns_of_none (succeeds_set (.channel data.guildId data.id) (i := .channel data) trivial)
  | channelDelete data =>
    refine returns_of_getOld hJ (e := .channel data.guildId data.id) ?_ (succeeds_delAll _)
    exact fun i hi => ⟨_, rfl, hi⟩
  | channelPinsUpdate data =>
    refine (succeeds_get fun t (ht : TextOf J (Entity.channel data.guildId data.channelId).key t) =>
      ht.decodes hJ.channel fun i hi => hi.channel).bind fun r _ => ?_
    cases r with
    | none => exact .pure (Event.returns_none _)
    | some channel =>
      exact returns_of_none (succeeds_set (.channel data.guildId data.channelId)
        (i := .channel { channel with lastPinTimestamp := data.lastPinTimestamp }) trivial)
  | channelUpdate data =>
    refine returns_of_getOld hJ (e := .channel data.guildId data.id) ?_
      (succeeds_set (.channel data.guildId data.id) (i := .channel data) trivial)
    exact fun i hi => ⟨_, rfl, hi⟩
  | guildCreate data =>
    refine (succeeds_clearGuild hJ data.id).bind fun old hold => ?_
    refine (succeeds_guildItems data).andThen fun _ => ?_
    refine .ite (fun _ => (succeeds_expireAll fun kv hkv => ?_).andThen fun _ => .pure hold)
      fun _ => .pure hold
    obtain ⟨member, -, rfl⟩ := List.mem_map.mp hkv
    exact hdates.member
  | guildDelete data => exact succeeds_clearGuild hJ data.id
  | guildEmojisUpdate data => exact (ends_guildEmojisUpdate hJ data).succeeds (hread rfl)
  | guildUpdate data =>
    refine returns_of_getOld hJ (e := .guild data.id) ?_
      (succeeds_set (.guild data.id) (i := .partialGuild data) rfl)
    exact fun i hi => ⟨_, rfl, hi⟩
  | memberAdd data =>
    refine hskip ((succeeds_set (.member data.guildId data.user.id) (i := .member data) rfl).andThen
      fun _ => ?_)
    exact returns_of_none (hexpire [_] hdates.member)
  | memberRemove data =>
    have hpresence {old : Option V} (hold : Event.Returns J (.memberRemove data) old) :
        Succeeds exec (Texts J) (do
          if cfg.statePresence then
            del env.orders (presenceKey data.guildId data.user.id)
          return old : Api T (Option V)) (Event.Returns J (.memberRemove data)) :=
      .ite (fun _ => (succeeds_delAll _).andThen fun _ => .pure hold) fun _ => .pure hold
    refine .ite (fun _ => ?_) fun _ => hpresence (Event.returns_none _)
    refine (succeeds_getOld hJ (.member data.guildId data.user.id)).bind fun old hold => ?_
    refine (succeeds_delAll _).andThen fun _ => hpresence fun v hv => ?_
    obtain ⟨i, hi, hread⟩ := hold v hv
    exact ⟨i, ⟨_, rfl, hi⟩, hread⟩
  | memberUpdate data =>
    refine hskip (returns_of_refresh hJ (e := .member data.guildId data.user.id) hJ.member
      (fun i hi => hi.member) ?_ ?_ hdates.member rfl fun member => rfl)
    · exact fun i hi => ⟨_, rfl, hi⟩
    · exact fun member => rfl
  | memberChunk data =>
    refine hskip ((succeeds_setAll fun kv hkv => ?_).andThen fun _ => ?_)
    · obtain ⟨member, -, rfl⟩ := List.mem_map.mp hkv
      exact ⟨.member data.guildId member.user.id, trivial, rfl, rfl⟩
    · refine returns_of_none (succeeds_expireAll fun kv hkv => ?_)
      obtain ⟨member, -, rfl⟩ := List.mem_map.mp hkv
      exact hdates.member
  | messageCreate data =>
    refine hskip ((succeeds_set (.message data.channelId data.id) (i := .message data) trivial).andThen
      fun _ => ?_)
    exact returns_of_none (hexpire [_] hdates.message)
  | messageDelete data =>
    refine hskip (returns_of_getOld hJ (e := .message data.channelId data.id) ?_ (succeeds_delAll _))
    exact fun i hi => ⟨_, rfl, hi⟩
  | messageDeleteBulk data => exact (ends_messageDeleteBulk hJ data).succeeds (hread rfl)
  | messageUpdate data =>
    refine hskip (returns_of_refresh hJ (e := .message data.channelId data.id) hJ.message
      (fun i hi => hi.message) ?_ ?_ hdates.message rfl fun message => rfl)
    · exact fun i hi => ⟨_, rfl, hi⟩
    · exact fun message => trivial
  | presenceUpdate data =>
    refine hskip (returns_of_getOld hJ (e := .presence data.guildId data.userId) ?_
      (succeeds_set (.presence data.guildId data.userId) (i := .presence data) rfl))
    exact fun i hi => ⟨_, rfl, hi⟩
  | ready data =>
    refine (succeeds_set .botUser (i := .currentUser data.user) trivial).andThen fun _ => ?_
    refine returns_of_none (succeeds_setAll fun kv hkv => ?_)
    obtain ⟨guild, -, rfl⟩ := List.mem_map.mp hkv
    exact ⟨.guild guild.id, trivial, rfl, rfl⟩
  | roleCreate data =>
    exact returns_of_none (succeeds_set (.role data.guildId data.role.id) (i := .role data.role) rfl)
  | roleDelete data =>
    refine returns_of_getOld hJ (e := .role data.guildId data.roleId) ?_ (succeeds_delAll _)
    exact fun i hi => ⟨_, rfl, hi⟩
  | roleUpdate data =>
    refine returns_of_getOld hJ (e := .role data.guildId data.role.id) ?_
      (succeeds_set (.role data.guildId data.role.id) (i := .role data.role) rfl)
    exact fun i hi => ⟨_, rfl, hi⟩
  | unavailableGuild data =>
    refine returns_of_clearGuild hJ (g := data.id) ?_
      (succeeds_set (.guild data.id) (i := .unavailableGuild data) rfl)
    exact fun i hi => hi
  | userUpdate data =>
    refine returns_of_getOld hJ (e := .botUser) ?_
      (succeeds_set .botUser (i := .currentUser data) trivial)
    exact fun i hi => ⟨_, rfl, hi⟩
  | voiceStateUpdate data =>
    rcases data with ⟨_ | g, _ | ch, u, extra⟩
    · exact hskip (.pure (Event.returns_none _))
    · exact hskip (.pure (Event.returns_none _))
    · refine hskip (returns_of_getOld hJ (e := .voice g u) ?_ (succeeds_delAll _))
      exact fun i hi => ⟨_, rfl, hi⟩
    · refine hskip (returns_of_getOld hJ (e := .voice g u) ?_
        (succeeds_set (.voice g u) (i := .voice ⟨some g, some ch, u, extra⟩) rfl))
      exact fun i hi => ⟨_, rfl, hi⟩
  | _ => exact .pure (Event.returns_none _)

/-- However a list of keys is read, an update does not panic. -/
theorem ends_update (hJ : J.Lawful) (hdates : Dated cfg env.now) (event : Event) :
    Ends exec (Texts J) (ReadFailure env.oneKey) (update J cfg botId env event) (event.Returns J) := by
  cases hmany : event.readsMany with
  | false => exact .of_succeeds (succeeds_update hJ hdates (by simp [hmany]))
  | true =>
    cases event with
    | guildEmojisUpdate data => exact ends_guildEmojisUpdate hJ data
    | messageDeleteBulk data => exact ends_messageDeleteBulk hJ data
    | _ => cases hmany

/-! ## Processes -/

theorem succeeds_setKey {key : String} (hkey : key ∈ gatewayKeys) {i : Item}
    (h : TextOf J key (J.text i)) : Succeeds exec (Texts J) (set J orders key i) fun _ => True := by
  rw [set_eq (colon_notMem_of_gateway hkey)]
  refine succeeds_redis (fun s hs => hs.mset fun kv hkv => ?_) fun _ _ => trivial
  obtain rfl := List.mem_singleton.mp hkv
  exact h

theorem succeeds_announce (settings : Settings) :
    Succeeds exec (Texts J) (announce J settings env) fun _ => True :=
  (succeeds_setKey (by decide) (.started _)).andThen fun _ => succeeds_setKey (by decide) (.shards _)

theorem succeeds_saveSessions (resumable : List (UInt64 × ResumeSession)) :
    Succeeds exec (Texts J) (saveSessions J orders resumable) fun _ => True :=
  succeeds_setKey (by decide) (.sessions (named_savedSessions resumable))

/-- A round writes what it has read of the clusters, and sweeps. -/
theorem safe_jobsRound (statuses : List StatusInfo) (info : List (UInt64 × ShardInfo)) :
    Safe exec (Texts J) (jobsRound J env statuses (dumpedSessions info)) fun _ => True :=
  Safe.bind (succeeds_setKey (by decide) (.statuses _)) fun _ _ =>
    Safe.bind (succeeds_setKey (by decide) (.sessions (named_dumpedSessions info))) fun _ _ =>
      safe_sweep

/-- Stored sessions are under names of shards, so entering them does not panic. -/
theorem succeeds_getResumes (hJ : J.Lawful) (settings : Settings) :
    Succeeds exec (Texts J) (getResumes J settings orders) fun _ => True := by
  refine .ite (fun _ => ?_) fun _ => .pure trivial
  refine (succeeds_get (R := fun _ => True) fun t ht => ?_).bind fun total _ => ?_
  · obtain ⟨n, rfl⟩ := ht.of_shards
    exact ⟨n, hJ.shardsTotal n, trivial⟩
  refine .ite (fun _ => ?_) fun _ => .pure trivial
  refine (succeeds_get (R := Named) fun t ht => ?_).bind fun sessions hnamed => ?_
  · obtain ⟨m, hm, rfl⟩ := ht.of_sessions
    exact ⟨m, hJ.sessions m, hm⟩
  refine .foldlM (R := fun _ => True) (fun resumes _ entry hentry => ?_) trivial
  obtain ⟨key, -, hkey⟩ := List.mem_filterMap.mp hentry
  obtain ⟨value, hvalue, rfl⟩ := Option.map_eq_some_iff.mp hkey
  cases sessions with
  | none => exact absurd hvalue (by simp)
  | some m =>
    obtain ⟨shard, hshard⟩ := hnamed m rfl key (Finmap.mem_of_lookup_eq_some hvalue)
    unfold insertResume
    rw [hshard, parse_toString]
    exact .pure trivial

theorem succeeds_getClusters (hJ : J.Lawful) {settings : Settings} (h : settings.Valid) :
    Succeeds exec (Texts J) (getClusters J settings orders) fun r => settings.Partitions r.1 := by
  rw [h.getClusters_eq]
  exact (succeeds_getResumes hJ settings).andThen fun resumes => .pure (h.partitions resumes)

theorem succeeds_getMembersLen (key : String) :
    Succeeds exec (Texts J) (getMembersLen key : Api T ℕ) fun _ => True :=
  succeeds_redis (c := .scard key) (fun _ hs => hs) fun _ _ => trivial

theorem succeeds_getStateStats :
    Succeeds exec (Texts J) (getStateStats : Api T StateStats) fun _ => True := by
  unfold getStateStats
  iterate 8 refine (succeeds_getMembersLen _).andThen fun _ => ?_
  exact .pure trivial

/-! ## The service -/

/-- What a program returns. -/
inductive Outcome (V : Type) where
  | updated (event : Event) (old : Option V)
  | connected (settings : Settings) (clusters : List Cluster) (info : ClusterInfo)
  | counted (stats : StateStats)
  | done

/-- The programs of the service: the updates of all its processes, where a list of keys is read as a list,
and what a process does for itself. -/
inductive Serves (J : Json T V) : Api T (Outcome V) → Prop
  | update (cfg : Config) (botId : Id .user) {env : Env} (event : Event) (h : Dated cfg env.now)
      (hone : event.readsMany = true → env.oneKey = .list) :
      Serves J (update J cfg botId env event >>= fun old => pure (.updated event old))
  | connect {settings : Settings} (h : settings.Valid) (orders : Orders) : Serves J
      (getClusters J settings orders >>= fun r => pure (.connected settings r.1 r.2))
  | announce (settings : Settings) (env : Env) :
      Serves J (announce J settings env >>= fun _ => pure .done)
  | jobs (env : Env) (statuses : List StatusInfo) (info : List (UInt64 × ShardInfo)) : Serves J
      (ExceptT.lift (jobsRound J env statuses (dumpedSessions info)) >>= fun _ => pure .done)
  | stats : Serves J (getStateStats >>= fun stats => pure (.counted stats))
  | save (orders : Orders) (resumable : List (UInt64 × ResumeSession)) :
      Serves J (saveSessions J orders resumable >>= fun _ => pure .done)

/-- An old value is one that the event recalls, and the shards are divided among the clusters. -/
def Outcome.Good (J : Json T V) : Outcome V → Prop
  | updated event old => event.Returns J old
  | connected settings clusters _ => settings.Partitions clusters
  | counted _ => True
  | done => True

theorem Serves.succeeds (hJ : J.Lawful) {x : Api T (Outcome V)} (h : Serves J x) :
    Succeeds exec (Texts J) x (Outcome.Good J) := by
  cases h with
  | update cfg botId event h hone => exact (succeeds_update hJ h hone).bind fun old hold => .pure hold
  | connect h orders => exact (succeeds_getClusters hJ h).bind fun r hr => .pure hr
  | announce settings env => exact (succeeds_announce settings).andThen fun _ => .pure trivial
  | jobs env statuses info =>
    have hround : Succeeds exec (Texts J)
        (ExceptT.lift (jobsRound J env statuses (dumpedSessions info)) : Api T Unit) fun _ => True :=
      Safe.bind (safe_jobsRound statuses info) fun _ _ => Safe.ret ⟨(), rfl, trivial⟩
    exact hround.andThen fun _ => .pure trivial
  | stats => exact succeeds_getStateStats.andThen fun _ => .pure trivial
  | save orders resumable => exact (succeeds_saveSessions resumable).andThen fun _ => .pure trivial

end TwilightDispatch
