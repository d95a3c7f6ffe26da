import TwilightDispatch.Clearing

/-!
# Created guilds

A guild comes with its channels, roles, emojis, voice states, members and presences. Its creation
replaces everything that is cached of the guild by what is listed now, object by object
(`guildCreate_replaces`).
-/

namespace TwilightDispatch

open Atomic Redis

variable {T V : Type} {J : Json T V} {cfg : Config} {botId : Id .user} {s : Store T}
  {e : Entity} {data : Guild} {home : Id .channel → Option (Id .guild)}

/-! ## What is listed -/

/-- What the creation of a guild stores for an entity of the guild: the last object that is listed for
it, where its kind is cached. -/
def Guild.listed (cfg : Config) (botId : Id .user) (data : Guild) : Entity → Option Item
  | .guild _ => some (.guild { data with
    channels := [], roles := [], emojis := [], voiceStates := [], members := [], presences := [] })
  | .channel _ c => ((data.channels.filter fun channel => channel.id = c).getLast?).map
    fun channel => .channel { channel with guildId := some data.id }
  | .role _ r => ((data.roles.filter fun role => role.id = r).getLast?).map .role
  | .emoji _ id =>
    if cfg.stateEmoji then ((data.emojis.filter fun emoji => emoji.id = id).getLast?).map .emoji
    else none
  | .voice _ u =>
    if cfg.stateVoice then ((data.voiceStates.filter fun voice => voice.userId = u).getLast?).map .voice
    else none
  | .member _ u =>
    if cfg.stateMember || u = botId then
      ((data.members.filter fun member => member.user.id = u).getLast?).map .member
    else none
  | .presence _ u =>
    if cfg.statePresence then
      ((data.presences.filter fun presence => presence.userId = u).getLast?).map .presence
    else none
  | .botUser | .message _ _ => none

/-- The keys the creation of a guild stores something under. -/
def Guild.keys (cfg : Config) (botId : Id .user) (data : Guild) : List String :=
  data.channels.map (fun channel => privateChannelKey channel.id) ++
  data.roles.map (fun role => roleKey data.id role.id) ++
  (if cfg.stateEmoji then data.emojis.map fun emoji => emojiKey data.id emoji.id else []) ++
  (if cfg.stateVoice then data.voiceStates.map fun voice => voiceKey data.id voice.userId else []) ++
  (if cfg.stateMember then data.members.map fun member => memberKey data.id member.user.id
    else (data.members.filter fun member => member.user.id = botId).map
      fun member => memberKey data.id member.user.id) ++
  (if cfg.statePresence then data.presences.map fun presence => presenceKey data.id presence.userId
    else []) ++
  [guildKey data.id]

/-- The stored keys of entities are as different as the entities are, the guilds of channels apart. -/
theorem Entity.stored_eq_iff {e e' : Entity} (he : e.kind ≠ CHANNEL_KEY) :
    e'.stored = e.stored ↔ e' = e :=
  ⟨fun h => (Entity.stored_inj h.symm he).symm, fun h => h ▸ rfl⟩

theorem Entity.stored_eq_channel {e' : Entity} {g : Option (Id .guild)} {c : Id .channel} :
    e'.stored = (Entity.channel g c).stored ↔ ∃ g', e' = .channel g' c := by
  constructor
  · intro h
    obtain ⟨g', c', rfl⟩ := Entity.eq_channel_of_kind (e := e') (by
      rw [← kindOf_stored, h, kindOf_stored]
      rfl)
    exact ⟨g', congrArg _ (privateChannelKey_inj.mp h)⟩
  · rintro ⟨g', rfl⟩
    rfl

/-- What the creation of a guild stores, entity by entity. -/
def Guild.parts (cfg : Config) (botId : Id .user) (data : Guild) : List (Entity × Item) :=
  data.channels.map (fun channel =>
    (Entity.channel (some data.id) channel.id, Item.channel { channel with guildId := some data.id })) ++
  data.roles.map (fun role => (Entity.role data.id role.id, Item.role role)) ++
  (data.emojis.filter fun _ => cfg.stateEmoji).map
    (fun emoji => (Entity.emoji data.id emoji.id, Item.emoji emoji)) ++
  (data.voiceStates.filter fun _ => cfg.stateVoice).map
    (fun voice => (Entity.voice data.id voice.userId, Item.voice voice)) ++
  (data.members.filter fun member => cfg.stateMember || member.user.id = botId).map
    (fun member => (Entity.member data.id member.user.id, Item.member member)) ++
  (data.presences.filter fun _ => cfg.statePresence).map
    (fun presence => (Entity.presence data.id presence.userId, Item.presence presence)) ++
  [(Entity.guild data.id, Item.guild { data with
    channels := [], roles := [], emojis := [], voiceStates := [], members := [], presences := [] })]

theorem guildItems_eq : guildItems cfg botId data =
    (data.parts cfg botId).map fun part => (part.1.key, part.2) := by
  unfold guildItems Guild.parts
  simp only [List.map_append, List.map_map]
  rfl

/-- The last part of a created guild for an entity of the guild is what is listed for it. -/
theorem Guild.getLast?_parts (he : e = .guild data.id ∨ e.guildOf = some data.id) :
    (((data.parts cfg botId).filter fun part => part.1.stored = e.stored).getLast?).map Prod.snd =
      data.listed cfg botId e := by
  have hstored (hkind : e.kind ≠ CHANNEL_KEY) (e' : Entity) : e'.stored = e.stored ↔ e' = e :=
    Entity.stored_eq_iff hkind
  cases e with
  | botUser => simp [Entity.guildOf] at he
  | message c m => simp [Entity.guildOf] at he
  | guild g =>
    obtain rfl : g = data.id := by simpa [Entity.guildOf] using he
    have hpart := hstored (show GUILD_KEY ≠ CHANNEL_KEY by decide)
    simp [Guild.parts, Guild.listed, hpart, List.filter_map, Function.comp_def]
  | channel g c =>
    simp [Guild.parts, Guild.listed, Entity.stored_eq_channel, List.filter_map, Function.comp_def]
  | role g r =>
    obtain rfl : g = data.id := by simpa [Entity.guildOf] using he
    have hpart := hstored (show ROLE_KEY ≠ CHANNEL_KEY by decide)
    simp [Guild.parts, Guild.listed, hpart, List.filter_map, Function.comp_def]
  | emoji g id =>
    obtain rfl : g = data.id := by simpa [Entity.guildOf] using he
    have hpart := hstored (show EMOJI_KEY ≠ CHANNEL_KEY by decide)
    by_cases hcfg : cfg.stateEmoji = true <;>
      simp [Guild.parts, Guild.listed, hpart, hcfg, List.filter_map, Function.comp_def]
  | voice g u =>
    obtain rfl : g = data.id := by simpa [Entity.guildOf] using he
    have hpart := hstored (show VOICE_KEY ≠ CHANNEL_KEY by decide)
    by_cases hcfg : cfg.stateVoice = true <;>
      simp [Guild.parts, Guild.listed, hpart, hcfg, List.filter_map, Function.comp_def]
  | presence g u =>
    obtain rfl : g = data.id := by simpa [Entity.guildOf] using he
    have hpart := hstored (show PRESENCE_KEY ≠ CHANNEL_KEY by decide)
    by_cases hcfg : cfg.statePresence = true <;>
      simp [Guild.parts, Guild.listed, hpart, hcfg, List.filter_map, Function.comp_def]
  | member g u =>
    obtain rfl : g = data.id := by simpa [Entity.guildOf] using he
    have hpart := hstored (show MEMBER_KEY ≠ CHANNEL_KEY by decide)
    -- whether a member is stored depends on its user only
    have hflag : (fun member : Member => decide (member.user.id = u) &&
        (cfg.stateMember || decide (member.user.id = botId))) =
          fun member => decide (member.user.id = u) && (cfg.stateMember || decide (u = botId)) := by
      funext member
      by_cases hu : member.user.id = u <;> simp [hu]
    by_cases hcfg : cfg.stateMember || u = botId <;>
      simp [Guild.parts, Guild.listed, hpart, hflag, hcfg, List.filter_map, List.filter_filter,
        Function.comp_def, -List.getLast?_filter]

variable (J cfg botId) in
/-- The last entry for an entity of the guild is what is listed for it. -/
theorem lastOf_guildItems (he : e = .guild data.id ∨ e.guildOf = some data.id) :
    lastOf (storedPairs J (guildItems cfg botId data)) e.stored =
      (data.listed cfg botId e).map J.text := by
  rw [guildItems_eq, lastOf_part, ← Guild.getLast?_parts he, Option.map_map]
  rfl

/-- Where members are cached, the entry of a member is the last one among the members. -/
theorem lastOf_guildItems_member (hon : cfg.stateMember = true) (data : Guild) (u : Id .user) :
    lastOf (storedPairs J (guildItems cfg botId data)) (memberKey data.id u) =
      lastOf (storedPairs J (data.members.map fun member =>
        (memberKey data.id member.user.id, .member member))) (memberKey data.id u) := by
  have hkind : (Entity.member data.id u).kind ≠ CHANNEL_KEY := (by decide : MEMBER_KEY ≠ CHANNEL_KEY)
  have he : Entity.member data.id u = .guild data.id ∨
      (Entity.member data.id u).guildOf = some data.id := Or.inr rfl
  have hitems := lastOf_guildItems J cfg botId he
  have hmembers := lastOf_part (J := J) data.members (fun member => .member data.id member.user.id)
    .member (.member data.id u)
  simp only [Entity.stored_eq_iff hkind, Entity.member.injEq, true_and] at hmembers
  refine hitems.trans (Eq.trans ?_ hmembers.symm)
  simp [Guild.listed, hon, Function.comp_def]

theorem Guild.keys_eq : data.keys cfg botId =
    (guildItems cfg botId data).map fun kv => newKey kv.1 := by
  have hkeys : (guildItems cfg botId data).map (fun kv => newKey kv.1) =
      (data.parts cfg botId).map fun part => part.1.stored := by
    rw [guildItems_eq, List.map_map]
    exact List.map_congr_left fun part _ => newKey_key part.1
  rw [hkeys]
  unfold Guild.keys Guild.parts
  simp only [List.map_append, List.map_map]
  refine congrArg₂ _ (congrArg₂ _ (congrArg₂ _ (congrArg₂ _ (congrArg₂ _ rfl ?_) ?_) ?_) ?_) rfl
  · cases cfg.stateEmoji <;> simp [Function.comp_def, Entity.stored, Entity.key]
  · cases cfg.stateVoice <;> simp [Function.comp_def, Entity.stored, Entity.key]
  · cases cfg.stateMember <;> simp [Function.comp_def, Entity.stored, Entity.key]
  · cases cfg.statePresence <;> simp [Function.comp_def, Entity.stored, Entity.key]

/-! ## What is left -/

/-- What the creation of a guild stores is the guild and what belongs to it. -/
theorem belongs_keys (hok : ∀ e, (Event.guildCreate data).Touches e → HomeOnly home e) {k : String}
    (hk : k ∈ data.keys cfg botId) : k = guildKey data.id ∨ Belongs home data.id k := by
  rw [Guild.keys_eq] at hk
  obtain ⟨kv, hkv, rfl⟩ := List.mem_map.mp hk
  have htouches : ∀ e, (Event.guildCreate data).Touches e → e.Enabled cfg botId →
      HomeOnly home e ∧ (e = .guild data.id ∨ e.guildOf = some data.id) :=
    fun e he _ => ⟨hok e he, he.imp_right And.left⟩
  obtain ⟨e, ⟨hhome, he⟩, hkey, -⟩ := writes_guildItems htouches kv hkv
  rw [← hkey, newKey_key]
  exact he.imp (congrArg Entity.stored) fun hg => ⟨e, hhome, hg, rfl⟩

/-- Clearing a guild leaves what is not of the guild. -/
theorem WellFormed.strings_clears (h : WellFormed J home s) {orders : Orders} {g : Id .guild}
    {s₁ : Store T} (hs₁ : s₁ = unlisted orders g s ∨ s₁ = cleared orders g s) {k : String}
    (hk : ¬ (k = guildKey g ∨ Belongs home g k)) : s₁.strings k = s.strings k := by
  have hl : k ∉ s.sets (guildKeys (toString g)) := fun hl => hk (Or.inr (h.belongs hl))
  rcases hs₁ with rfl | rfl
  · rw [h.strings_unlisted, if_neg hl]
  · rw [h.strings_cleared, if_neg fun hk' => hk'.elim (fun hg => hk (Or.inl hg)) hl]

/-- **The creation of a guild is a full replacement.** In every state a run reaches, what is cached of
the guild afterwards is what the event lists, under the keys of the event (`Guild.keys`) and with its
last object for each (`Guild.listed`). Every other string is as it was. -/
theorem guildCreate_replaces (J : Json T V) (cfg : Config) (botId : Id .user)
    {home : Id .channel → Option (Id .guild)} {steps : List Step} {env : Env} {data : Guild}
    (hok : ∀ step ∈ steps ++ [⟨env, .event (.guildCreate data)⟩], step.Ok (HomeOnly home)) :
    let s := stateAfter J cfg botId steps
    let s' := stateAfter J cfg botId (steps ++ [⟨env, .event (.guildCreate data)⟩])
    (∀ k, s'.Has k ∧ (k = guildKey data.id ∨ Belongs home data.id k) ↔ k ∈ data.keys cfg botId) ∧
    (∀ e, HomeOnly home e → e = .guild data.id ∨ e.guildOf = some data.id →
      s'.strings e.stored = (data.listed cfg botId e).map J.text) ∧
    ∀ k, ¬ (k = guildKey data.id ∨ Belongs home data.id k) → s'.strings k = s.strings k := by
  intro s s'
  have h : WellFormed J home s := .stateAfter fun step hstep => hok step (List.mem_append_left _ hstep)
  have htouches : ∀ e, (Event.guildCreate data).Touches e → HomeOnly home e :=
    hok _ (List.mem_append_right _ (List.mem_singleton_self _))
  have hclears : (Event.guildCreate data).clears = some data.id := rfl
  obtain ⟨s₁, hs₁, hstr, -⟩ := run_update_clears J cfg botId s env hclears
  have hs' : s'.strings = (putAll J (guildItems cfg botId data) s₁).strings := by
    rw [← Step.next_event, ← stateAfter_append] at hstr
    exact hstr
  have hhas (k : String) : s'.Has k ↔ s₁.Has k ∨ k ∈ data.keys cfg botId := by
    unfold Store.Has
    rw [hs', Guild.keys_eq, List.mem_map]
    exact has_putAll
  obtain ⟨hgone, -⟩ := h.clears hs₁
  refine ⟨fun k => ⟨?_, fun hk => ⟨(hhas k).mpr (Or.inr hk), belongs_keys htouches hk⟩⟩,
    fun e hhome he => ?_, fun k hk => ?_⟩
  · rintro ⟨hk, rfl | hb⟩
    · exact List.mem_append_right _ (List.mem_singleton_self _)
    · exact ((hhas k).mp hk).resolve_left (hgone k hb)
  · rw [hs', strings_putAll, lastOf_guildItems J cfg botId he]
    rcases he with rfl | hg
    · rfl
    · rw [not_not.mp (hgone e.stored ⟨e, hhome, hg, rfl⟩), Option.or_none]
  · have hnone : lastOf (storedPairs J (guildItems cfg botId data)) k = none := by
      refine lastOf_storedPairs_eq_none fun kv hkv heq => ?_
      have hkey : k ∈ data.keys cfg botId := by
        rw [Guild.keys_eq]
        exact List.mem_map.mpr ⟨kv, hkv, heq⟩
      exact hk (belongs_keys htouches hkey)
    rw [hs', strings_putAll, hnone, Option.none_or, h.strings_clears hs₁ hk]

/-- A guild with the roles `roles` and without anything else. -/
def guildWithRoles (roles : List Role) : Guild := ⟨.of 1, "", [], [], [], [], roles, [], ""⟩

/-- A guild comes back with another role than before. -/
theorem guildCreate_replaces_role :
    let s := stateAfter Json.plain .full (.of 9)
      [⟨.at (.of 0), .event (.guildCreate (guildWithRoles [⟨.of 3, ""⟩]))⟩,
        ⟨.at (.of 0), .event (.guildCreate (guildWithRoles [⟨.of 4, "old"⟩, ⟨.of 4, "new"⟩]))⟩]
    ¬ s.Has (roleKey (.of 1) (.of 3)) ∧
      s.strings (roleKey (.of 1) (.of 4)) = some (Json.plain.text (.role ⟨.of 4, "new"⟩)) := by
  have hok : ∀ step ∈ [(⟨.at (.of 0), .event (.guildCreate (guildWithRoles [⟨.of 3, ""⟩]))⟩ : Step)] ++
      [⟨.at (.of 0), .event (.guildCreate (guildWithRoles [⟨.of 4, "old"⟩, ⟨.of 4, "new"⟩]))⟩],
      step.Ok (HomeOnly fun _ => none) := by
    intro step hstep
    rcases List.mem_pair.mp hstep with rfl | rfl <;>
    · rintro e (rfl | ⟨hg, hchannel⟩)
      · trivial
      · cases e with
        | channel g c =>
          obtain ⟨channel, hchannel, -⟩ := hchannel g c rfl
          cases hchannel
        | _ => trivial
  have hreplaces := (guildCreate_replaces Json.plain .full (.of 9) hok).2.1
  refine ⟨fun hk => hk ?_, ?_⟩
  · exact hreplaces (.role (.of 1) (.of 3)) trivial (Or.inr rfl)
  · exact hreplaces (.role (.of 1) (.of 4)) trivial (Or.inr rfl)

end TwilightDispatch
