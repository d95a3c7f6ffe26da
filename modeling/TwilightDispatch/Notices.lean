import TwilightDispatch.Refresh
import TwilightDispatch.Steady

/-!
# Notices

All that the task of an event does besides updating the cache: it counts or publishes the event, as
`Received.report` says, and it announces connections of shards and joins and leaves of guilds in channels
of the bot (`Received.acts`). The notice of a leave is put together from the old value of the guild, of
which the task requires that it is an object. It always is, so no task panics over it, and the notice names
the guild as it was stored when the task has read it (`leave_announced`).
-/

namespace TwilightDispatch

open Atomic Redis

variable {T V : Type} {J : Json T V} {P : PayloadJson V} {cfg : Config} {botId : Id .user} {s : Store T}

/-! ## The code -/

/-- The configuration of the notices: where they are posted, if anywhere. -/
structure LogConfig where
  logChannel : UInt64
  logGuildChannel : UInt64

/-- A message with one embed. -/
structure Post where
  channelId : UInt64
  color : UInt32
  title : String
  description : Option String
  deriving DecidableEq

/-- What a task does. -/
inductive Act where
  | effect (effect : Effect)
  | post (post : Post)
  | panic
  deriving DecidableEq

def logDiscord (log : LogConfig) (color : ℕ) (message : String) : List Act :=
  if log.logChannel = 0 then []
  else [.post ⟨log.logChannel, UInt32.ofNat color, message, none⟩]

def logDiscordGuild (log : LogConfig) (color : ℕ) (title message : String) : List Act :=
  if log.logGuildChannel = 0 then []
  else [.post ⟨log.logGuildChannel, UInt32.ofNat color, title, some message⟩]

/-- How JSON values are looked into. -/
structure ValueAccess (V : Type) where
  /-- The empty object. -/
  empty : V
  asObject : V → Option (String → Option V)
  asStr : V → Option String

/-- The name and the number of a guild, as its notice has them. -/
def guildText (name id : String) : String := name ++ " (" ++ id ++ ")"

def ValueAccess.describe (A : ValueAccess V) (guild : String → Option V) : String :=
  guildText (((guild "name").bind A.asStr).getD "Unknown") (((guild "id").bind A.asStr).getD "0")

section Code

variable (P : PayloadJson V) (A : ValueAccess V) (log : LogConfig)

/-- The announcement of a connection. -/
def Received.shardPost (item : Received) (color : ℕ) (kind : String) : List Act :=
  logDiscord log color ("[Shard " ++ toString item.shard ++ "] " ++ kind)

/-- What `outgoing` does with an event besides updating the cache, notices included. -/
def Received.acts (item : Received) (old : Option V) : List Act :=
  match item.event with
  | .ready _ => item.shardPost log READY_COLOR "Ready" ++ [.effect (.shardEvent "Ready")]
  | .resumed => item.shardPost log RESUME_COLOR "Resumed" ++ [.effect (.shardEvent "Resumed")]
  | .shardConnected =>
    item.shardPost log CONNECT_COLOR "Connected" ++ [.effect (.shardEvent "Connected")]
  | .shardConnecting _ => [.effect (.shardEvent "Connecting")]
  | .shardDisconnected _ =>
    item.shardPost log DISCONNECT_COLOR "Disconnected" ++ [.effect (.shardEvent "Disconnected")]
  | .shardIdentifying => [.effect (.shardEvent "Identifying")]
  | .shardReconnecting => [.effect (.shardEvent "Reconnecting")]
  | .shardResuming _ => [.effect (.shardEvent "Resuming")]
  | .guildCreate data =>
    if old.isNone then
      .effect (.guildEvent "Join") ::
        logDiscordGuild log JOIN_COLOR "Guild Join" (guildText data.name (toString data.id))
    else []
  | .guildDelete data =>
    if !data.unavailable then
      .effect (.guildEvent "Leave") ::
        match A.asObject (old.getD A.empty) with
        | some guild => logDiscordGuild log LEAVE_COLOR "Guild Leave" (A.describe guild)
        -- the value is no object
        | none => [.panic]
    else []
  | .shardPayload bytes =>
    match P.fromSlice bytes with
    | .ok payload =>
      match payload.t with
      | some kind =>
        .effect (.gatewayEvent kind (toString item.shard)) ::
          match P.toVec { payload with old := old } with
          | .ok payload => [.effect (.publish EXCHANGE kind payload)]
          | .error _ => []
      | none => []
    | .error _ => []
  | _ => []

variable (J : Json T V) (cfg : Config) (botId : Id .user)

/-- The task spawned for an event, with all that it does. -/
def Received.actsTask (item : Received) : Prog (interface T) (List Act) :=
  if item.inTask cfg then do
    match ← item.cacheUpdate J cfg botId with
    | .ok value => return item.acts P A log value
    | .error (.error _) => return item.acts P A log none
    | .error .panic => return [.panic]
  else return item.acts P A log none

/-- All that is done for an event, in the loop and in its task. -/
def Received.actsProg (item : Received) : Prog (interface T) (List Act) :=
  if item.inLoop cfg then
    item.cacheUpdate J cfg botId >>= fun _ => item.actsTask P A log J cfg botId
  else item.actsTask P A log J cfg botId

end Code

/-! ## Effects -/

/-- The effect of an act, if it is one that is reported. -/
def Act.effect? : Act → Option Effect
  | effect e => some e
  | post _ | panic => none

/-- The notice of an act, if it is one. -/
def Act.post? : Act → Option Post
  | post p => some p
  | effect _ | panic => none

section Effects

variable {A : ValueAccess V} {log : LogConfig} {item : Received} {old : Option V}

@[simp] theorem effects_logDiscord (color : ℕ) (message : String) :
    (logDiscord log color message).filterMap Act.effect? = [] := by
  unfold logDiscord
  split_ifs <;> rfl

@[simp] theorem effects_logDiscordGuild (color : ℕ) (title message : String) :
    (logDiscordGuild log color title message).filterMap Act.effect? = [] := by
  unfold logDiscordGuild
  split_ifs <;> rfl

@[simp] theorem effects_shardPost (color : ℕ) (kind : String) :
    (item.shardPost log color kind).filterMap Act.effect? = [] := effects_logDiscord ..

/-- Notices apart, a task does what is reported of it. -/
theorem effects_acts : (item.acts P A log old).filterMap Act.effect? = item.report P old := by
  obtain ⟨shard, event, env⟩ := item
  cases event with
  | guildCreate data =>
    simp only [Received.acts, Received.report]
    split_ifs <;> simp [Act.effect?]
  | guildDelete data =>
    simp only [Received.acts, Received.report]
    split_ifs
    · cases A.asObject (old.getD A.empty) <;> simp [Act.effect?]
    · rfl
  | shardPayload bytes =>
    simp only [Received.acts, Received.report]
    rcases P.fromSlice bytes with _ | ⟨op, _ | kind, d, o⟩
    · rfl
    · rfl
    · simp only
      cases P.toVec ⟨op, some kind, d, old⟩ <;> rfl
  | _ => simp [Received.acts, Received.report, Act.effect?]

/-- A task panics only over the old value of a guild that is no object. -/
theorem panic_mem_acts (h : .panic ∈ item.acts P A log old) :
    ∃ data, item.event = .guildDelete data ∧ A.asObject (old.getD A.empty) = none := by
  have hdiscord (color : ℕ) (message : String) : .panic ∉ logDiscord log color message := by
    unfold logDiscord
    split_ifs <;> simp
  have hguild (color : ℕ) (title message : String) :
      .panic ∉ logDiscordGuild log color title message := by
    unfold logDiscordGuild
    split_ifs <;> simp
  obtain ⟨shard, event, env⟩ := item
  cases event with
  | guildCreate data =>
    simp only [Received.acts] at h
    split_ifs at h <;> simp [hguild] at h
  | guildDelete data =>
    simp only [Received.acts] at h
    split_ifs at h
    · cases hobject : A.asObject (old.getD A.empty) with
      | some guild => simp [hobject, hguild] at h
      | none => exact ⟨data, rfl, rfl⟩
    · cases h
  | shardPayload bytes =>
    simp only [Received.acts] at h
    rcases hfrom : P.fromSlice bytes with _ | ⟨op, _ | kind, d, o⟩ <;> simp only [hfrom] at h
    · cases h
    · cases h
    · cases hvec : P.toVec ⟨op, some kind, d, old⟩ <;> simp [hvec] at h
  | _ => simp [Received.acts, Received.shardPost, hdiscord] at h

/-- An event is announced by one notice at most. -/
theorem length_posts_le : ((item.acts P A log old).filterMap Act.post?).length ≤ 1 := by
  have hdiscord (color : ℕ) (message : String) :
      ((logDiscord log color message).filterMap Act.post?).length ≤ 1 := by
    unfold logDiscord
    split_ifs <;> simp [Act.post?]
  have hguild (color : ℕ) (title message : String) :
      ((logDiscordGuild log color title message).filterMap Act.post?).length ≤ 1 := by
    unfold logDiscordGuild
    split_ifs <;> simp [Act.post?]
  obtain ⟨shard, event, env⟩ := item
  cases event with
  | guildCreate data =>
    simp only [Received.acts]
    split_ifs
    · exact hguild ..
    · exact Nat.zero_le _
  | guildDelete data =>
    simp only [Received.acts]
    split_ifs
    · cases A.asObject (old.getD A.empty) with
      | some guild => exact hguild ..
      | none => exact Nat.zero_le _
    · exact Nat.zero_le _
  | shardPayload bytes =>
    simp only [Received.acts]
    rcases P.fromSlice bytes with _ | ⟨op, _ | kind, d, o⟩
    · exact Nat.zero_le _
    · exact Nat.zero_le _
    · simp only
      cases P.toVec ⟨op, some kind, d, old⟩ <;> exact Nat.zero_le _
  | ready | resumed | shardConnected | shardDisconnected =>
    simp only [Received.acts, Received.shardPost, List.filterMap_append]
    exact (List.append_nil _).symm ▸ hdiscord ..
  | _ => exact Nat.zero_le _

end Effects

section Tasks

variable {A : ValueAccess V} {log : LogConfig} {item : Received}

/-- Notices apart, the task is the one that is reported. -/
theorem Received.task_eq_actsTask : item.task J P cfg botId =
    item.actsTask P A log J cfg botId >>= fun acts => .ret (acts.filterMap Act.effect?) := by
  unfold Received.task Received.actsTask
  split_ifs
  · rw [bind_assoc]
    refine bind_congr fun r => ?_
    rcases r with (err | _) | old
    · exact congrArg Prog.ret effects_acts.symm
    · rfl
    · exact congrArg Prog.ret effects_acts.symm
  · exact congrArg Prog.ret effects_acts.symm

end Tasks

/-! ## Old values of guilds -/

/-- What the service looks up in the values of guilds: they are objects with a name, except that a guild
that is unavailable has none, and with their number. -/
structure ValueAccess.Reads (A : ValueAccess V) (J : Json T V) (name : PartialGuild → String) : Prop where
  empty : ∃ guild, A.asObject A.empty = some guild ∧ ∀ key, guild key = none
  guild : ∀ data v, J.value (J.text (.guild data)) = .ok v → ∃ guild, A.asObject v = some guild ∧
    (guild "name").bind A.asStr = some data.name ∧ (guild "id").bind A.asStr = some (toString data.id)
  partialGuild : ∀ data v, J.value (J.text (.partialGuild data)) = .ok v →
    ∃ guild, A.asObject v = some guild ∧ (guild "name").bind A.asStr = some (name data) ∧
      (guild "id").bind A.asStr = some (toString data.id)
  unavailableGuild : ∀ data v, J.value (J.text (.unavailableGuild data)) = .ok v →
    ∃ guild, A.asObject v = some guild ∧ guild "name" = none ∧
      (guild "id").bind A.asStr = some (toString data.id)

/-- The name under which a guild is announced of which this is stored. A placeholder has none. -/
def Item.guildName (name : PartialGuild → String) : Item → String
  | .guild data => data.name
  | .partialGuild data => name data
  | _ => "Unknown"

/-- The text of the notice of a guild that is left. -/
def leaveText (name : PartialGuild → String) (g : Id .guild) : Option Item → String
  | some i => guildText (i.guildName name) (toString g)
  | none => guildText "Unknown" "0"

/-- What is stored of a guild where the commands of its event have read it. Without the state, nothing is
read. -/
structure Finds (J : Json T V) (cfg : Config) (issued : List (Cmd T × Store T)) (g : Id .guild)
    (stored : Option Item) : Prop where
  holds : ∀ i, stored = some i → (Entity.guild g).Holds i
  enabled : cfg.stateEnabled = true → ∃ st, (.get (guildKey g), st) ∈ issued ∧
    st.strings (guildKey g) = stored.map J.text
  disabled : cfg.stateEnabled = false → stored = none

section Leaves

variable {A : ValueAccess V} {log : LogConfig} {item : Received} {old : Option V}
  {name : PartialGuild → String} {issued : List (Cmd T × Store T)} {acts : List Act}

/-- A value of a guild is described by its name and the number of the guild. -/
theorem ValueAccess.Reads.describe (hA : A.Reads J name) {g : Id .guild} {i : Item} {v : V}
    (hi : (Entity.guild g).Holds i) (hv : J.value (J.text i) = .ok v) :
    ∃ guild, A.asObject v = some guild ∧ A.describe guild = leaveText name g (some i) := by
  cases i with
  | guild data =>
    obtain rfl : data.id = g := hi
    obtain ⟨guild, hguild, hname, hid⟩ := hA.guild data v hv
    exact ⟨guild, hguild, by rw [ValueAccess.describe, hname, hid]; rfl⟩
  | partialGuild data =>
    obtain rfl : data.id = g := hi
    obtain ⟨guild, hguild, hname, hid⟩ := hA.partialGuild data v hv
    exact ⟨guild, hguild, by rw [ValueAccess.describe, hname, hid]; rfl⟩
  | unavailableGuild data =>
    obtain rfl : data.id = g := hi
    obtain ⟨guild, hguild, hname, hid⟩ := hA.unavailableGuild data v hv
    exact ⟨guild, hguild, by rw [ValueAccess.describe, hname, hid]; rfl⟩
  | _ => exact hi.elim

theorem ValueAccess.Reads.describe_empty (hA : A.Reads J name) (g : Id .guild) :
    ∃ guild, A.asObject A.empty = some guild ∧ A.describe guild = leaveText name g none := by
  obtain ⟨guild, hguild, hnone⟩ := hA.empty
  refine ⟨guild, hguild, ?_⟩
  rw [ValueAccess.describe, hnone, hnone]
  rfl

/-- The old value with which a guild is deleted is an object. -/
theorem ValueAccess.Reads.asObject_old (hA : A.Reads J name) {data : GuildDelete}
    (hold : Event.Returns J (.guildDelete data) old) : A.asObject (old.getD A.empty) ≠ none := by
  cases old with
  | none =>
    obtain ⟨guild, hguild, -⟩ := hA.describe_empty data.id
    exact Option.ne_none_iff_exists'.mpr ⟨guild, hguild⟩
  | some v =>
    obtain ⟨i, hi, hv⟩ := hold v rfl
    obtain ⟨guild, hguild, -⟩ := hA.describe hi hv
    exact Option.ne_none_iff_exists'.mpr ⟨guild, hguild⟩

/-- What has been done for an event when nothing fails: it is reported, announced at most once, and nothing
panics; a guild that is left is announced as it is stored where it was read. -/
structure Received.Handled (J : Json T V) (P : PayloadJson V) (name : PartialGuild → String)
    (log : LogConfig) (cfg : Config) (item : Received) (issued : List (Cmd T × Store T))
    (acts : List Act) : Prop where
  reported : item.Completes J P (acts.filterMap Act.effect?)
  posts : (acts.filterMap Act.post?).length ≤ 1
  no_panic : .panic ∉ acts
  leave : ∀ data, item.event = .guildDelete data → data.unavailable = false →
    ∃ stored, Finds J cfg issued data.id stored ∧ acts = .effect (.guildEvent "Leave") ::
      logDiscordGuild log LEAVE_COLOR "Guild Leave" (leaveText name data.id stored)

theorem Received.safe_actsTask (hJ : J.Lawful) (h : item.Dated cfg) :
    Safe exec (Texts J) (item.actsTask P A log J cfg botId)
      fun acts => ∃ old, item.event.Returns J old ∧ acts = item.acts P A log old := by
  unfold Received.actsTask
  split_ifs with hin
  · refine Safe.bind (Received.ends_cacheUpdate hJ h hin) ?_
    rintro _ (⟨old, rfl, hold⟩ | ⟨err, rfl⟩)
    · exact .ret ⟨old, hold, rfl⟩
    · exact .ret ⟨none, item.event.returns_none, rfl⟩
  · exact .ret ⟨none, item.event.returns_none, rfl⟩

theorem Received.safe_actsProg (hJ : J.Lawful) (h : item.Dated cfg) :
    Safe exec (Texts J) (item.actsProg P A log J cfg botId)
      fun acts => ∃ old, item.event.Returns J old ∧ acts = item.acts P A log old := by
  unfold Received.actsProg
  split_ifs with hin
  · exact Safe.bind (Received.safe_cacheUpdate hJ h hin) fun _ _ => Received.safe_actsTask hJ h
  · exact Received.safe_actsTask hJ h

/-- The task of a guild that is left finds the guild as it is stored, and announces that. -/
theorem Received.leave_of_issues (hJ : J.Lawful) (hA : A.Reads J name)
    (h : Prog.Issues exec (item.actsProg P A log J cfg botId) issued (.ret acts))
    (hissued : ∀ x ∈ issued, Texts J x.2) {data : GuildDelete} (hevent : item.event = .guildDelete data)
    (havailable : data.unavailable = false) :
    ∃ stored, Finds J cfg issued data.id stored ∧ acts = .effect (.guildEvent "Leave") ::
      logDiscordGuild log LEAVE_COLOR "Guild Leave" (leaveText name data.id stored) := by
  obtain ⟨shard, event, env⟩ := item
  obtain rfl : event = .guildDelete data := hevent
  have hacts (old : Option V) {guild : String → Option V}
      (hguild : A.asObject (old.getD A.empty) = some guild) :
      Received.acts P A log ⟨shard, .guildDelete data, env⟩ old = .effect (.guildEvent "Leave") ::
        logDiscordGuild log LEAVE_COLOR "Guild Leave" (A.describe guild) := by
    simp only [Received.acts, havailable, hguild]
    rfl
  have hloop : Received.inLoop cfg ⟨shard, .guildDelete data, env⟩ = false := by
    simp [Received.inLoop, Event.kind]
  rw [Received.actsProg, hloop, if_neg Bool.false_ne_true, Received.actsTask] at h
  cases hcfg : cfg.stateEnabled with
  | false =>
    have hin : Received.inTask cfg ⟨shard, .guildDelete data, env⟩ = false := by
      simp [Received.inTask, hcfg]
    rw [hin, if_neg Bool.false_ne_true] at h
    cases h
    obtain ⟨guild, hguild, htext⟩ := hA.describe_empty data.id
    refine ⟨none, ⟨by simp, by simp [hcfg], fun _ => rfl⟩, ?_⟩
    rw [hacts none hguild, htext]
  | true =>
    have hin : Received.inTask cfg ⟨shard, .guildDelete data, env⟩ = true := by
      simp [Received.inTask, Event.kind, hcfg]
    rw [hin, if_pos rfl] at h
    obtain ⟨r, l₁, l₂, rfl, hupdate, hrest⟩ := h.bind
    obtain ⟨st, hst, rfl⟩ := yields_clearGuild J.value data.id l₁ r hupdate
    cases hrest
    cases ht : st.strings (guildKey data.id) with
    | none =>
      obtain ⟨guild, hguild, htext⟩ := hA.describe_empty data.id
      refine ⟨none, ⟨by simp, fun _ => ⟨st, by simpa using hst, ht⟩, by simp [hcfg]⟩, ?_⟩
      rw [Option.bind_none, hacts none hguild, htext]
    | some t =>
      have htext := hissued _ (List.mem_append_left _ hst) _ t ht
      obtain ⟨i, hi, rfl⟩ := TextOf.of_key (e := .guild data.id) htext
      obtain ⟨v, hv⟩ := hJ.value i
      obtain ⟨guild, hguild, htext⟩ := hA.describe hi hv
      refine ⟨some i, ⟨fun _ h => Option.some.inj h ▸ hi, fun _ => ⟨st, by simpa using hst, ht⟩,
        by simp [hcfg]⟩, ?_⟩
      rw [Option.bind_some, hv, Except.toOption, hacts (some v) hguild, htext]

theorem Received.handled_of_issues (hJ : J.Lawful) (hA : A.Reads J name) (hdated : item.Dated cfg)
    (h : Prog.Issues exec (item.actsProg P A log J cfg botId) issued (.ret acts))
    (hissued : ∀ x ∈ issued, Texts J x.2) : item.Handled J P name log cfg issued acts where
  reported := by
    obtain ⟨old, hold, rfl⟩ := (Received.safe_actsProg hJ hdated).of_issues h hissued .empty
    exact ⟨old, hold, effects_acts⟩
  posts := by
    obtain ⟨old, -, rfl⟩ := (Received.safe_actsProg hJ hdated).of_issues h hissued .empty
    exact length_posts_le
  no_panic hpanic := by
    obtain ⟨old, hold, rfl⟩ := (Received.safe_actsProg hJ hdated).of_issues h hissued .empty
    obtain ⟨data, hevent, hnone⟩ := panic_mem_acts hpanic
    exact hA.asObject_old (hevent ▸ hold) hnone
  leave _ hevent havailable := Received.leave_of_issues hJ hA h hissued hevent havailable

end Leaves

/-! ## The service -/

/-- The programs of the service: all that is done for the events of all its processes, and what the
processes do for themselves. -/
inductive Handles (J : Json T V) (P : PayloadJson V) (A : ValueAccess V) (log : LogConfig) :
    Prog (interface T) (Option (Config × Received × List Act)) → Prop
  | event (cfg : Config) (botId : Id .user) {item : Received} (h : item.Dated cfg) :
      Handles J P A log (item.actsProg P A log J cfg botId >>= fun acts => .ret (some (cfg, item, acts)))
  | other {x : Api T (Outcome V)} (h : Serves J x) :
      Handles J P A log (ExceptT.run x >>= fun _ => .ret none)

theorem Handles.safe (hJ : J.Lawful) {A : ValueAccess V} {log : LogConfig}
    {p : Prog (interface T) (Option (Config × Received × List Act))} (h : Handles J P A log p) :
    Safe exec (Texts J) p fun _ => True := by
  cases h with
  | event cfg botId h => exact Safe.bind (Received.safe_actsProg hJ h) fun _ _ => .ret trivial
  | other h => exact Safe.bind (h.succeeds hJ) fun _ _ => .ret trivial

/-- **No task panics over a guild that is left.** Whatever is under way, in whatever order, an event that
has been handled has been reported in full and without a panic, and a guild that is left is announced as it
was stored when its task has read it: under its name and number, as unknown with its number if it was a
placeholder, and as unknown if nothing was stored. -/
theorem leave_announced (hJ : J.Lawful) {A : ValueAccess V} {name : PartialGuild → String}
    (hA : A.Reads J name) {log : LogConfig} {entries : List (Entry (interface T) (Store T))}
    {tasks : List (Prog (interface T) (Option (Config × Received × List Act)))}
    (h : Recorded exec (Handles J P A log) Store.empty entries tasks s) {i : ℕ} {cfg : Config}
    {item : Received} {acts : List Act} (hi : tasks[i]? = some (.ret (some (cfg, item, acts)))) :
    item.Handled J P name log cfg (own i entries) acts := by
  obtain ⟨p, hp, hissues⟩ := h.issues hi
  have hown : ∀ x ∈ own i entries, Texts J x.2 := by
    rintro ⟨c, st⟩ hx
    exact Safe.recorded (fun _ hp => hp.safe hJ) h .empty _ (mem_own.mp hx)
  cases hp with
  | event cfg' botId hdated =>
    obtain ⟨acts', l₁, l₂, hl, hprog, hret⟩ := hissues.bind
    cases hret
    rw [List.append_nil] at hl
    exact Received.handled_of_issues hJ hA hdated (hl ▸ hprog) hown
  | other =>
    obtain ⟨_, _, _, -, -, hret⟩ := hissues.bind
    cases hret

/-- JSON values that are the values themselves, and what is found in the values of guilds. -/
inductive PlainValue where
  | empty
  | item (i : Item)
  | str (s : String)

def Json.looked : Json Item PlainValue :=
  { Json.plain with value := fun i => .ok (.item i) }

theorem Json.looked_lawful : Json.looked.Lawful :=
  { Json.plain_lawful with value := fun i => ⟨.item i, rfl⟩ }

def ValueAccess.plain : ValueAccess PlainValue where
  empty := .empty
  asObject
    | .empty => some fun _ => none
    | .item (.guild data) => some fun key =>
      if key = "name" then some (.str data.name)
      else if key = "id" then some (.str (toString data.id)) else none
    | .item (.partialGuild data) => some fun key =>
      if key = "name" then some (.str data.extra)
      else if key = "id" then some (.str (toString data.id)) else none
    | .item (.unavailableGuild data) => some fun key =>
      if key = "id" then some (.str (toString data.id)) else none
    | _ => none
  asStr
    | .str s => some s
    | _ => none

theorem ValueAccess.plain_reads : ValueAccess.plain.Reads Json.looked PartialGuild.extra where
  empty := ⟨_, rfl, fun _ => rfl⟩
  guild data v hv := by
    obtain rfl := Except.ok.inj hv
    exact ⟨_, rfl, rfl, rfl⟩
  partialGuild data v hv := by
    obtain rfl := Except.ok.inj hv
    exact ⟨_, rfl, rfl, rfl⟩
  unavailableGuild data v hv := by
    obtain rfl := Except.ok.inj hv
    exact ⟨_, rfl, rfl, rfl⟩

/-- A guild is joined and left, and the leave is announced under its name. -/
theorem leave_announced_left :
    let left : Received := ⟨0, .guildDelete ⟨.of 1, false⟩, .at (.of 0)⟩
    let acts : List Act := [.effect (.guildEvent "Leave"),
      .post ⟨7, UInt32.ofNat LEAVE_COLOR, "Guild Leave", some "den (1)"⟩]
    ∃ entries tasks s i,
      Recorded exec (Handles Json.looked .empty .plain ⟨0, 7⟩) Store.empty entries tasks s ∧
      tasks[i]? = some (.ret (some (.full, left, acts))) ∧
      left.Handled Json.looked .empty PartialGuild.extra ⟨0, 7⟩ .full (own i entries) acts := by
  intro left acts
  let joined : Received := ⟨0, .guildCreate ⟨.of 1, "den", [], [], [], [], [], [], ""⟩, .at (.of 0)⟩
  have hdated (item : Received) (h : item.env = .at (.of 0)) : item.Dated .full := fun _ => by
    rw [h]
    exact ⟨by decide, by decide⟩
  have hstart : Reached exec (Handles Json.looked .empty .plain ⟨0, 7⟩) Store.empty [_] Store.empty :=
    Reached.init.start (.event .full (.of 9) (hdated joined rfl))
  obtain ⟨tasks, h, -⟩ := hstart.returns (List.getElem?_cons_zero ..)
  have hnext : Reached exec (Handles Json.looked .empty .plain ⟨0, 7⟩) Store.empty (tasks ++ [_]) _ :=
    h.start (.event .full (.of 9) (hdated left rfl))
  obtain ⟨tasks', h', hr⟩ := hnext.returns List.getElem?_concat_length
  obtain ⟨entries, hentries⟩ := h'.recorded
  obtain ⟨i, hi⟩ := List.mem_iff_getElem?.mp hr
  have hacts : ((left.actsProg .empty .plain ⟨0, 7⟩ Json.looked .full (.of 9)).run exec
      ((joined.actsProg .empty .plain ⟨0, 7⟩ Json.looked .full (.of 9)).run exec Store.empty).2).1 =
        acts := by decide +kernel
  rw [Prog.run_bind, Prog.run_bind] at hi
  have hleft : tasks'[i]? = some (.ret (some (.full, left, acts))) := by
    rw [← hacts]
    exact hi
  exact ⟨entries, tasks', _, i, hentries, hleft,
    leave_announced Json.looked_lawful ValueAccess.plain_reads hentries hleft⟩

end TwilightDispatch
