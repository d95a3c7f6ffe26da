import TwilightDispatch.Frame
import TwilightDispatch.Guild

/-!
# Clearing a guild

`clear_guild` deletes every key the index of a guild lists and the guild itself. In a well-formed
state that is everything cached that belongs to the guild and nothing else
(`clearGuild_complete`).

The index itself is left with the channels it listed, which are no longer cached. It is exact
again when the event brings these channels back; `guildIndex_exact` says that this is the only way
in which an index ceases to be exact.
-/

namespace TwilightDispatch

open Atomic Redis

variable {T V : Type} {J : Json T V} {cfg : Config} {botId : Id .user} {s : Store T}
  {k S : String} {home : Id .channel → Option (Id .guild)} {orders : Orders} {g : Id .guild}

/-! ## The store after the listed keys are deleted -/

theorem setMembers_guildKey (g : Id .guild) :
    setMembers (guildKey g) = [(kindKeys GUILD_KEY, guildKey g)] :=
  setMembers_stored (.guild g)

@[simp] theorem newKey_guildKey (g : Id .guild) : newKey (guildKey g) = guildKey g :=
  newKey_stored (.guild g)

namespace WellFormed

variable (h : WellFormed J home s)
include h

theorem strings_unlisted : (unlisted orders g s).strings k =
    if k ∈ s.sets (guildKeys (toString g)) then none else s.strings k := by
  have hmem : k ∈ (orders.listing (s.sets (guildKeys (toString g)))).map newKey ↔
      k ∈ s.sets (guildKeys (toString g)) := by
    simp only [List.mem_map, orders.mem_listing]
    constructor
    · rintro ⟨key, hkey, rfl⟩
      rwa [h.newKey_listed hkey]
    · exact fun hk => ⟨k, hk, h.newKey_listed hk⟩
  unfold unlisted
  rw [strings_dropAll]
  simp only [hmem]

theorem mem_sets_unlisted : k ∈ (unlisted orders g s).sets S ↔
    k ∈ s.sets S ∧ ¬ (k ∈ s.sets (guildKeys (toString g)) ∧ (S, k) ∈ setMembers k) := by
  unfold unlisted
  rw [mem_sets_dropAll]
  refine and_congr_right fun _ => not_congr ?_
  simp only [orders.mem_listing]
  constructor
  · rintro ⟨key, hkey, hm⟩
    obtain rfl := (eq_newKey_of_mem_setMembers hm).trans (h.newKey_listed hkey)
    exact ⟨hkey, hm⟩
  · rintro ⟨hk, hm⟩
    exact ⟨k, hk, hm⟩

theorem strings_cleared : (cleared orders g s).strings k =
    if k = guildKey g ∨ k ∈ s.sets (guildKeys (toString g)) then none else s.strings k := by
  unfold cleared
  rw [strings_dropAll, h.strings_unlisted]
  by_cases hk : k = guildKey g <;> simp [hk]

theorem mem_sets_cleared : k ∈ (cleared orders g s).sets S ↔ k ∈ s.sets S ∧
    ¬ (k ∈ s.sets (guildKeys (toString g)) ∧ (S, k) ∈ setMembers k) ∧
    ¬ (S = kindKeys GUILD_KEY ∧ k = guildKey g) := by
  unfold cleared
  rw [mem_sets_dropAll, h.mem_sets_unlisted, and_assoc]
  simp [setMembers_guildKey]

/-- What was cached of a guild is what its index lists of cached keys. -/
theorem mem_guildIndex_iff (hk : s.Has k) :
    k ∈ s.sets (guildKeys (toString g)) ↔ Belongs home g k := ⟨h.belongs, h.listed hk⟩

end WellFormed

/-! ## Clearing is complete and touches nothing else -/

/-- **Clearing a guild.** In every state a run reaches, clearing a guild returns the value the
guild had, removes the guild and everything that belongs to it from the string map and from the
indexes of their kinds, and leaves every other string, every other entry of these indexes, the
indexes of other guilds and those of the channels as they were. -/
theorem clearGuild_complete {J : Json T V} (hJ : J.Lawful) (cfg : Config) (botId : Id .user)
    {home : Id .channel → Option (Id .guild)} {steps : List Step}
    (hok : ∀ step ∈ steps, step.Ok (HomeOnly home)) (orders : Orders) (g : Id .guild) :
    let s := stateAfter J cfg botId steps
    ∃ old s', Fallible.run exec (clearGuild J.value orders g) s = (.ok old, s') ∧
      (s.strings (guildKey g)).map J.value = old.map .ok ∧
      (∀ k, k = guildKey g ∨ Belongs home g k → s'.strings k = none) ∧
      (∀ k, ¬ (k = guildKey g ∨ Belongs home g k) → s'.strings k = s.strings k) ∧
      (∀ kind : String, ':' ∉ kind.toList → ∀ k, k ∈ s'.sets (kindKeys kind) ↔
        k ∈ s.sets (kindKeys kind) ∧ ¬ (k = guildKey g ∨ Belongs home g k)) ∧
      (∀ g', g' ≠ g → s'.sets (guildKeys (toString g')) = s.sets (guildKeys (toString g'))) ∧
      ∀ c : Id .channel, s'.sets (channelKeys (toString c)) = s.sets (channelKeys (toString c)) := by
  intro s
  have h : WellFormed J home s := .stateAfter hok
  obtain ⟨old, hrun, hold⟩ := h.indexed.run_clearGuild h.known hJ orders g
  refine ⟨old, cleared orders g s, hrun, hold, fun k hk => ?_, fun k hk => ?_,
    fun kind hkind k => ?_, fun g' hg' => ?_, fun c => ?_⟩
  · rw [h.strings_cleared]
    by_cases hhas : s.Has k
    · exact if_pos (hk.imp_right (h.listed hhas))
    · rw [not_not.mp hhas, ite_self]
  · rw [h.strings_cleared]
    exact if_neg fun hk' => hk (hk'.imp_right h.belongs)
  · rw [h.mem_sets_cleared]
    refine and_congr_right fun hk => ?_
    obtain ⟨hhas, hm⟩ :=
      (h.indexed.listed _ _ fun _ => kindKeys_ne_guildKeys hkind).mp hk
    rw [not_or, h.mem_guildIndex_iff hhas]
    constructor
    · rintro ⟨hb, hg⟩
      refine ⟨?_, fun hb' => hb ⟨hb', hm⟩⟩
      rintro rfl
      rw [setMembers_guildKey, List.mem_singleton] at hm
      exact hg ⟨congrArg Prod.fst hm, rfl⟩
    · rintro ⟨hg, hb⟩
      exact ⟨fun hb' => hb hb'.1, fun hg' => hg hg'.2⟩
  · ext k
    rw [h.mem_sets_cleared, and_iff_left_iff_imp]
    refine fun hk => ⟨fun hk' => hg' ?_, fun hk' => ?_⟩
    · exact (h.belongs hk).unique (h.belongs hk'.1)
    · exact guildKeys_ne_kindKeys (by decide) _ hk'.1
  · ext k
    rw [h.mem_sets_cleared, and_iff_left_iff_imp]
    refine fun _ => ⟨fun hk' => ?_, fun hk' => channelKeys_ne_kindKeys (by decide) _ hk'.1⟩
    obtain ⟨e, -, hg, rfl⟩ := h.belongs hk'.1
    obtain ⟨m, rfl⟩ := channelKeys_mem_indexes.mp ((mem_setMembers_stored e).mp hk'.2)
    cases hg

/-- Two guilds have a role each; clearing the first removes its role. -/
theorem clearGuild_complete_two : ∃ old s', Fallible.run exec
      (clearGuild Json.plain.value .sorted (.of 1)) (stateAfter Json.plain .full (.of 9)
        [⟨.at (.of 0), .event (.roleCreate ⟨.of 1, ⟨.of 3, ""⟩⟩)⟩,
          ⟨.at (.of 0), .event (.roleCreate ⟨.of 2, ⟨.of 4, ""⟩⟩)⟩]) = (.ok old, s') ∧
      s'.strings (roleKey (.of 1) (.of 3)) = none := by
  have hok : ∀ step ∈ [(⟨.at (.of 0), .event (.roleCreate ⟨.of 1, ⟨.of 3, ""⟩⟩)⟩ : Step),
      ⟨.at (.of 0), .event (.roleCreate ⟨.of 2, ⟨.of 4, ""⟩⟩)⟩],
      step.Ok (HomeOnly fun _ => none) := by
    intro step hstep
    rcases List.mem_pair.mp hstep with rfl | rfl <;>
    · rintro e rfl
      trivial
  obtain ⟨old, s', hrun, -, hgone, -⟩ := clearGuild_complete Json.plain_lawful .full (.of 9)
    hok .sorted (.of 1)
  exact ⟨old, s', hrun, hgone _ (Or.inr ⟨.role (.of 1) (.of 3), trivial, rfl, rfl⟩)⟩

/-! ## Events that clear a guild -/

/-- What an event that clears a guild writes afterwards. -/
def Event.restores (cfg : Config) (botId : Id .user) : Event → List (String × Item)
  | guildCreate data => guildItems cfg botId data
  | unavailableGuild data => [(guildKey data.id, .unavailableGuild data)]
  | _ => []

/-- The channels an event that clears a guild brings back. -/
def Event.carries : Event → List (Id .channel)
  | guildCreate data => data.channels.map (·.id)
  | _ => []

/-- Clearing a guild always succeeds. It keeps a guild whose value does not decode. -/
theorem run_clearGuild_cases (decode : T → Except SimdJsonError V) (orders : Orders)
    (g : Id .guild) (s : Store T) :
    ∃ old s', (s' = unlisted orders g s ∨ s' = cleared orders g s) ∧
      Fallible.run exec (clearGuild decode orders g) s = (.ok old, s') := by
  cases ht : (unlisted orders g s).strings (guildKey g) with
  | none => exact ⟨none, _, Or.inr rfl, run_clearGuild (run_get_none ht)⟩
  | some t =>
    cases hd : decode t with
    | ok v => exact ⟨some v, _, Or.inr rfl, run_clearGuild (run_get_some ht hd)⟩
    | error err =>
      refine ⟨none, _, Or.inl rfl, ?_⟩
      have hget : Fallible.run exec (get decode (guildKey g)) (unlisted orders g s) =
          (.error (.error (.simdJson err)), unlisted orders g s) := run_get_error ht hd
      unfold clearGuild
      rw [Fallible.run_bind_ok (run_attempt_ok (run_getMembers (guildKeys (toString g))))]
      simp only
      have hdrop : Fallible.run exec
          (delAll orders (orders.listing (s.sets (guildKeys (toString g))))) s =
          (.ok (), unlisted orders g s) := run_delAll _
      rw [Fallible.run_bind_ok hdrop, Fallible.run_bind_ok (run_attempt_error hget)]
      rfl

/-- The strings and sets an event that clears a guild leaves. -/
theorem run_update_clears (J : Json T V) (cfg : Config) (botId : Id .user) (s : Store T)
    (env : Env) {event : Event} (hg : event.clears = some g) :
    ∃ s₁, (s₁ = unlisted env.orders g s ∨ s₁ = cleared env.orders g s) ∧
      (Fallible.run exec (update J cfg botId env event) s).2.strings =
        (putAll J (event.restores cfg botId) s₁).strings ∧
      (Fallible.run exec (update J cfg botId env event) s).2.sets =
        (putAll J (event.restores cfg botId) s₁).sets := by
  obtain ⟨old, s₁, hs₁, hrun⟩ := run_clearGuild_cases J.value env.orders g s
  refine ⟨s₁, hs₁, ?_⟩
  cases event with
  | guildDelete data =>
    obtain rfl := Option.some.inj hg
    have hup : Fallible.run exec (update J cfg botId env (.guildDelete data)) s = (.ok old, s₁) := hrun
    rw [hup, show Event.restores cfg botId (.guildDelete data) = [] from rfl, putAll_nil]
    exact ⟨rfl, rfl⟩
  | unavailableGuild data =>
    obtain rfl := Option.some.inj hg
    have hup : Fallible.run exec (update J cfg botId env (.unavailableGuild data)) s =
        (.ok old, putAll J [(guildKey data.id, .unavailableGuild data)] s₁) := by
      unfold update
      rw [Fallible.run_bind_ok hrun, Fallible.run_bind_ok (run_set _ _)]
      rfl
    rw [hup]
    exact ⟨rfl, rfl⟩
  | guildCreate data =>
    obtain rfl := Option.some.inj hg
    unfold update
    rw [Fallible.run_bind_ok hrun, Fallible.run_bind_ok (run_setAll _)]
    by_cases hm : cfg.stateMember = true
    · simp only [hm, if_true]
      rw [Fallible.run_bind, run_expireAll]
      cases deadlines J env.now _ <;> exact ⟨rfl, rfl⟩
    · simp only [hm]
      exact ⟨rfl, rfl⟩
  | _ => cases hg

/-- The channels that are restored are the channels the event carries. -/
theorem restores_channel {event : Event} {c : Id .channel} :
    (∃ kv ∈ event.restores cfg botId, newKey kv.1 = privateChannelKey c) ↔ c ∈ event.carries := by
  have hno : ∀ e : Entity, e.kind ≠ CHANNEL_KEY → newKey e.key ≠ privateChannelKey c := by
    intro e he hk
    rw [newKey_key] at hk
    exact he (by rw [← kindOf_stored, hk, kindOf_privateChannelKey])
  cases event with
  | guildCreate data =>
    constructor
    · rintro ⟨kv, hkv, hk⟩
      unfold Event.restores guildItems at hkv
      simp only [List.mem_append, List.mem_map, List.mem_singleton] at hkv
      rcases hkv with (((((⟨x, hx, rfl⟩ | ⟨x, hx, rfl⟩) | ⟨x, hx, rfl⟩) | ⟨x, hx, rfl⟩) |
        ⟨x, hx, rfl⟩) | ⟨x, hx, rfl⟩) | rfl
      · have hk' := (newKey_key (.channel (some data.id) x.id)).symm.trans hk
        obtain rfl := privateChannelKey_inj.mp hk'
        exact List.mem_map_of_mem hx
      · exact absurd hk (hno (.role data.id x.id) (show ROLE_KEY ≠ _ by decide))
      · exact absurd hk (hno (.emoji data.id x.id) (show EMOJI_KEY ≠ _ by decide))
      · exact absurd hk (hno (.voice data.id x.userId) (show VOICE_KEY ≠ _ by decide))
      · exact absurd hk (hno (.member data.id x.user.id) (show MEMBER_KEY ≠ _ by decide))
      · exact absurd hk (hno (.presence data.id x.userId) (show PRESENCE_KEY ≠ _ by decide))
      · exact absurd hk (hno (.guild data.id) (show GUILD_KEY ≠ _ by decide))
    · intro hc
      obtain ⟨channel, hchannel, rfl⟩ := List.mem_map.mp hc
      refine ⟨(channelKey (some data.id) channel.id,
        .channel { channel with guildId := some data.id }), ?_,
        newKey_key (.channel (some data.id) channel.id)⟩
      unfold Event.restores guildItems
      simp only [List.mem_append, List.mem_map]
      exact Or.inl (Or.inl (Or.inl (Or.inl (Or.inl (Or.inl ⟨channel, hchannel, rfl⟩)))))
  | unavailableGuild data =>
    simp only [Event.restores, Event.carries, List.mem_singleton, exists_eq_left, List.not_mem_nil,
      iff_false]
    exact hno (.guild data.id) (show GUILD_KEY ≠ _ by decide)
  | _ => simp [Event.restores, Event.carries]

/-! ## When the index of a guild is exact -/

/-- Each guild's index lists what is cached and belongs to the guild, and nothing else. -/
def GuildIndexExact (home : Id .channel → Option (Id .guild)) (s : Store T) : Prop :=
  ∀ (g : Id .guild) k, k ∈ s.sets (guildKeys (toString g)) ↔ s.Has k ∧ Belongs home g k

/-- The channels the indexes of the guilds list are cached. -/
def ListedCached (s : Store T) : Prop :=
  ∀ (g : Id .guild) k, kindOf k = CHANNEL_KEY → k ∈ s.sets (guildKeys (toString g)) → s.Has k

/-- If the step clears a guild, it brings back every channel the guild's index lists. -/
def BringsBack (s : Store T) (step : Step) : Prop :=
  match step.job with
  | .event event => ∀ g, event.clears = some g →
    ∀ c, privateChannelKey c ∈ s.sets (guildKeys (toString g)) → c ∈ event.carries
  | .sweep => True

theorem WellFormed.exact_iff (h : WellFormed J home s) :
    GuildIndexExact home s ↔ ListedCached s := by
  constructor
  · exact fun hex g k _ hk => ((hex g k).mp hk).1
  · refine fun hc g k => ⟨fun hk => ⟨?_, h.belongs hk⟩, fun hk => h.listed hk.1 hk.2⟩
    by_cases hkind : kindOf k = CHANNEL_KEY
    · exact hc g k hkind hk
    · exact h.has_of_listed hk hkind

theorem ListedCached.put (h : ListedCached s) (kvs : List (String × Item)) :
    ListedCached (putAll J kvs s) := by
  intro g k hkind hk
  rw [has_putAll]
  rcases mem_sets_putAll.mp hk with hk | ⟨kv, hkv, hk⟩
  · exact Or.inl (h g k hkind hk)
  · exact Or.inr ⟨kv, hkv, (eq_newKey_of_mem_setMembers hk).symm⟩

/-- Writes and the deletion of keys that the code builds keep the listed channels cached: the key
that is built for a channel names its guild. -/
theorem ListedCached.closed (env : Env) :
    Closed (fun x Q => Keeps exec (fun s : Store T => Homed home s ∧ ListedCached s) x Q) J cfg env
      (.any (HomeOnly home)) := by
  refine .of_keeps (fun c hc => .of_run fun s hs => ?_) (fun kvs hkvs => .of_run fun s hs => ?_)
    (fun kvs exps hkvs hexps => .of_run fun s hs => ?_) fun keys hkeys => .of_run fun s hs => ?_
  · cases c with
    | get | mget | smembers | scard | hgetall => exact hs
    | _ => exact hc.elim
  · rw [run_setAll]
    exact ⟨Homed.stable.put kvs s (fun kv hkv => (hkvs kv hkv).1) hs.1, hs.2.put kvs⟩
  · rw [Fallible.run_bind_ok (run_setAll kvs), run_expireAll]
    have hput : Homed home (putAll J kvs s) := Homed.stable.put kvs s hkvs hs.1
    cases deadlines J env.now exps with
    | none => exact ⟨hput, hs.2.put kvs⟩
    | some fields =>
      exact ⟨Homed.stable (J := J).hash (putAll J kvs s) _ rfl rfl hput, hs.2.put kvs⟩
  · rw [run_delAll]
    refine ⟨Homed.stable (J := J).drop keys s hs.1, fun g k hkind hk => ?_⟩
    obtain ⟨hk, hn⟩ := mem_sets_dropAll.mp hk
    refine has_dropAll.mpr ⟨hs.2 g k hkind hk, ?_⟩
    rintro ⟨key, hkey, hnew⟩
    obtain ⟨c, hc, rfl⟩ := hs.1.home g k hkind hk
    obtain ⟨e, hok, rfl⟩ := hkeys key hkey
    rw [newKey_key] at hnew
    obtain ⟨g', c', rfl⟩ := Entity.eq_channel_of_kind (e := e) (by rw [← kindOf_stored, hnew]; simp)
    obtain rfl := privateChannelKey_inj.mp hnew
    exact hn ⟨_, hkey, mem_setMembers_channel.mpr ⟨hok.symm.trans hc, rfl⟩⟩

/-- What belongs to the guild is not cached after the clearing, what the index lists of channels
is still listed. -/
theorem WellFormed.clears (h : WellFormed J home s) {s₁ : Store T}
    (hs₁ : s₁ = unlisted orders g s ∨ s₁ = cleared orders g s) :
    (∀ k, Belongs home g k → ¬ s₁.Has k) ∧
    (∀ k, kindOf k = CHANNEL_KEY → ¬ Belongs home g k → s.Has k → s₁.Has k) ∧
    (∀ (g' : Id .guild) k, kindOf k = CHANNEL_KEY →
      (k ∈ s₁.sets (guildKeys (toString g')) ↔ k ∈ s.sets (guildKeys (toString g')))) := by
  have hguild : ∀ k, kindOf k = CHANNEL_KEY → k ≠ guildKey g := by
    rintro k hk rfl
    rw [show kindOf (guildKey g) = GUILD_KEY from kindOf_stored (.guild g)] at hk
    exact absurd hk (by decide)
  have hset : ∀ (g' : Id .guild) k, kindOf k = CHANNEL_KEY →
      k ∈ s.sets (guildKeys (toString g)) → (guildKeys (toString g'), k) ∉ setMembers k := by
    intro g' k hkind hk hm
    obtain ⟨c, -, rfl⟩ := h.homed.home g k hkind hk
    exact notMem_setMembers_private hm
  unfold Store.Has
  rcases hs₁ with rfl | rfl
  · refine ⟨fun k hb hk => ?_, fun k _ hb hk => ?_, fun g' k hkind => ?_⟩
    · rw [h.strings_unlisted] at hk
      split_ifs at hk with hl
      · exact hk rfl
      · exact hl (h.listed hk hb)
    · rwa [h.strings_unlisted, if_neg fun hl => hb (h.belongs hl)]
    · rw [h.mem_sets_unlisted, and_iff_left]
      exact fun hl => hset g' k hkind hl.1 hl.2
  · refine ⟨fun k hb hk => ?_, fun k hkind hb hk => ?_, fun g' k hkind => ?_⟩
    · rw [h.strings_cleared] at hk
      split_ifs at hk with hl
      · exact hk rfl
      · exact hl (Or.inr (h.listed hk hb))
    · rwa [h.strings_cleared, if_neg]
      exact fun hl => hl.elim (hguild k hkind) fun hl => hb (h.belongs hl)
    · rw [h.mem_sets_cleared, and_iff_left]
      exact ⟨fun hl => hset g' k hkind hl.1 hl.2, fun hl => hguild k hkind hl.2⟩

/-- What an event that clears a guild leaves cached of the guild is what it restores. -/
theorem WellFormed.has_after_clear (h : WellFormed J home s) {env : Env} {event : Event}
    (hg : event.clears = some g) (hb : Belongs home g k)
    (hk : (Step.next J cfg botId s ⟨env, .event event⟩).Has k) :
    ∃ kv ∈ event.restores cfg botId, newKey kv.1 = k := by
  obtain ⟨s₁, hs₁, hstr, -⟩ := run_update_clears J cfg botId s env hg
  rw [Step.next_event] at hk
  unfold Store.Has at hk
  rw [hstr] at hk
  exact (has_putAll.mp hk).resolve_left ((h.clears hs₁).1 k hb)

/-- After a step that clears a guild, the listed channels are cached exactly if the event brings
back the channels the guild's index listed. -/
theorem WellFormed.listedCached_next_clear (h : WellFormed J home s) (hc : ListedCached s)
    {env : Env} {event : Event} (hg : event.clears = some g) :
    ListedCached (Step.next J cfg botId s ⟨env, .event event⟩) ↔
      BringsBack s ⟨env, .event event⟩ := by
  obtain ⟨s₁, hs₁, hstr, hset⟩ :=
    run_update_clears J cfg botId s env hg
  obtain ⟨hgone, hkept, hsets⟩ := h.clears hs₁
  have hhas : ∀ k, (Step.next J cfg botId s ⟨env, .event event⟩).Has k ↔
      (putAll J (event.restores cfg botId) s₁).Has k := by
    intro k
    unfold Store.Has
    rw [Step.next_event, hstr]
  constructor
  · intro hc' g' hg' c hl
    obtain rfl := Option.some.inj (hg.symm.trans hg')
    have hl' : privateChannelKey c ∈
        (Step.next J cfg botId s ⟨env, .event event⟩).sets (guildKeys (toString g)) := by
      rw [Step.next_event, hset, mem_sets_putAll]
      exact Or.inl ((hsets g _ (by simp)).mpr hl)
    exact restores_channel.mp (h.has_after_clear hg (h.belongs hl) (hc' g _ (by simp) hl'))
  · intro hb g' k hkind hk
    rw [Step.next_event, hset, mem_sets_putAll] at hk
    rw [hhas, has_putAll]
    rcases hk with hk | ⟨kv, hkv, hk⟩
    · have hl := (hsets g' k hkind).mp hk
      by_cases hbel : Belongs home g k
      · obtain rfl := (h.belongs hl).unique hbel
        obtain ⟨c, -, rfl⟩ := h.homed.home g' k hkind hl
        exact Or.inr (restores_channel.mpr (hb g' hg c hl))
      · exact Or.inl (hkept k hkind hbel (hc g' k hkind hl))
    · exact Or.inr ⟨kv, hkv, (eq_newKey_of_mem_setMembers hk).symm⟩

/-- **One step.** The listed channels stay cached exactly if the step brings back what it
clears. -/
theorem WellFormed.listedCached_next (h : WellFormed J home s) (hc : ListedCached s) {step : Step}
    (hok : step.Ok (HomeOnly home)) :
    ListedCached (step.next J cfg botId s) ↔ BringsBack s step := by
  rcases step with ⟨env, event | _⟩
  · cases hg : event.clears with
    | some g => exact h.listedCached_next_clear hc hg
    | none =>
      refine iff_of_true ?_ fun g hg' => absurd (hg.symm.trans hg') nofun
      rw [Step.next_event]
      have hclosed : Closed (fun x Q => Keeps exec (fun s => Homed home s ∧ ListedCached s) x Q) J
          cfg env (.any (HomeOnly home)) := ListedCached.closed env
      exact (hclosed.update (Scope.any_covers hok).admits (fun hn => absurd hg hn) s ⟨h.homed, hc⟩).1.2
  · refine iff_of_true (fun g k hkind hk => ?_) trivial
    rw [Step.next_sweep] at hk ⊢
    refine has_dropAll.mpr ⟨hc g k hkind (mem_sets_dropAll.mp hk).1, ?_⟩
    -- only keys of members and messages expire
    rintro ⟨key, hkey, rfl⟩
    obtain ⟨t, d, ht, -⟩ := mem_expired.mp hkey
    obtain ⟨e, -, he, rfl, -⟩ := h.deadlined key t ht
    rw [newKey_stored, kindOf_stored] at hkind
    obtain ⟨g', c, rfl⟩ := Entity.eq_channel_of_kind hkind
    cases he

/-- **Exact guild indexes.** Along a run the indexes of the guilds stay exact if and only if every
step that clears a guild brings back the channels the guild's index lists. In such a run the index
is empty after the guild is deleted, and lists no channel that is not carried after the guild is
created. -/
theorem guildIndex_exact (J : Json T V) (cfg : Config) (botId : Id .user)
    {home : Id .channel → Option (Id .guild)} {steps : List Step}
    (hok : ∀ step ∈ steps, step.Ok (HomeOnly home)) :
    ((∀ pre, pre <+: steps → GuildIndexExact home (stateAfter J cfg botId pre)) ↔
      ∀ pre step, pre ++ [step] <+: steps → BringsBack (stateAfter J cfg botId pre) step) ∧
    ((∀ pre step, pre ++ [step] <+: steps → BringsBack (stateAfter J cfg botId pre) step) →
      (∀ pre env data, pre ++ [⟨env, .event (.guildDelete data)⟩] <+: steps →
        (stateAfter J cfg botId (pre ++ [⟨env, .event (.guildDelete data)⟩])).sets
          (guildKeys (toString data.id)) = ∅) ∧
      ∀ pre env data, pre ++ [⟨env, .event (.guildCreate data)⟩] <+: steps →
        ∀ c, privateChannelKey c ∈
          (stateAfter J cfg botId (pre ++ [⟨env, .event (.guildCreate data)⟩])).sets
            (guildKeys (toString data.id)) → ∃ channel ∈ data.channels, channel.id = c) := by
  have hwf : ∀ pre, pre <+: steps → WellFormed J home (stateAfter J cfg botId pre) :=
    fun pre hpre => .stateAfter fun step hstep => hok step (hpre.subset hstep)
  have hiff : (∀ pre, pre <+: steps → GuildIndexExact home (stateAfter J cfg botId pre)) ↔
      ∀ pre step, pre ++ [step] <+: steps → BringsBack (stateAfter J cfg botId pre) step := by
    constructor
    · intro hex pre step hpre
      have hpre' : pre <+: steps := (List.prefix_append pre [step]).trans hpre
      have hnext := ((hwf _ hpre).exact_iff).mp (hex _ hpre)
      rw [stateAfter_append] at hnext
      exact ((hwf pre hpre').listedCached_next ((hwf pre hpre').exact_iff.mp (hex pre hpre'))
        (hok step (hpre.subset (by simp)))).mp hnext
    · intro hb pre hpre
      induction pre using List.reverseRecOn with
      | nil =>
        refine ((hwf [] hpre).exact_iff).mpr fun g k _ hk => ?_
        simp [Store.empty] at hk
      | append_singleton pre step ih =>
        have hpre' : pre <+: steps := (List.prefix_append pre [step]).trans hpre
        refine ((hwf _ hpre).exact_iff).mpr ?_
        rw [stateAfter_append]
        exact ((hwf pre hpre').listedCached_next ((hwf pre hpre').exact_iff.mp (ih hpre'))
          (hok step (hpre.subset (by simp)))).mpr (hb pre step hpre)
  refine ⟨hiff, fun hb => ⟨fun pre env data hpre => ?_, fun pre env data hpre c hc => ?_⟩⟩
  · refine Finset.eq_empty_of_forall_notMem fun k hk => ?_
    obtain ⟨hhas, hbel⟩ := ((hiff.mpr hb _ hpre) data.id k).mp hk
    rw [stateAfter_append] at hhas
    obtain ⟨kv, hkv, -⟩ :=
      (hwf pre ((List.prefix_append _ _).trans hpre)).has_after_clear rfl hbel hhas
    cases hkv
  · obtain ⟨hhas, hbel⟩ := ((hiff.mpr hb _ hpre) data.id _).mp hc
    rw [stateAfter_append] at hhas
    have hrest := restores_channel.mp
      ((hwf pre ((List.prefix_append _ _).trans hpre)).has_after_clear rfl hbel hhas)
    exact List.mem_map.mp hrest

/-- A role of guild 1 is created and the guild is deleted. -/
def roleRun : List Step :=
  [⟨.at (.of 0), .event (.roleCreate ⟨.of 1, ⟨.of 3, ""⟩⟩)⟩,
    ⟨.at (.of 0), .event (.guildDelete ⟨.of 1, false⟩)⟩]

/-- With no channel listed, the index of the deleted guild is empty. -/
theorem guildIndex_exact_roleRun :
    (stateAfter Json.plain .full (.of 9) roleRun).sets
      (guildKeys (toString (Id.of (m := .guild) 1))) = ∅ := by
  have hok : ∀ step ∈ roleRun, step.Ok (HomeOnly fun _ => none) := by
    intro step hstep
    rcases List.mem_pair.mp hstep with rfl | rfl <;>
    · rintro e rfl
      trivial
  refine ((guildIndex_exact Json.plain .full (.of 9) hok).2 ?_).1 (roleRun.take 1) _ _
    List.prefix_rfl
  rintro pre step ⟨rest, hrest⟩
  rcases pre with _ | ⟨first, _ | ⟨second, pre⟩⟩
  · obtain ⟨rfl, -⟩ := List.cons.inj hrest
    exact nofun
  · obtain ⟨rfl, htail⟩ := List.cons.inj hrest
    obtain ⟨rfl, -⟩ := List.cons.inj htail
    rintro g hg c hc
    obtain rfl := Option.some.inj hg
    have hset : (stateAfter Json.plain .full (.of 9) (roleRun.take 1)).sets
        (guildKeys (toString (Id.of (m := .guild) 1))) = {roleKey (.of 1) (.of 3)} := by
      decide +kernel
    have hk : privateChannelKey c = roleKey (.of 1) (.of 3) :=
      Finset.mem_singleton.mp (hset.subset hc)
    have hkind : CHANNEL_KEY = ROLE_KEY := (kindOf_privateChannelKey c).symm.trans
      ((congrArg kindOf hk).trans (kindOf_stored (.role (.of 1) (.of 3))))
    exact absurd hkind (by decide)
  · simp [roleRun] at hrest

/-- A channel of guild 1 is created and the guild is deleted. -/
def staleRun : List Step :=
  [⟨.at (.of 0), .event (.channelCreate ⟨.of 2, some (.of 1), none, ""⟩)⟩,
    ⟨.at (.of 0), .event (.guildDelete ⟨.of 1, false⟩)⟩]

/-- The deleted guild's index still lists the channel, which is no longer cached. -/
theorem guildIndex_stale :
    (∀ step ∈ staleRun, step.Ok (HomeOnly fun _ => some (.of 1))) ∧
    privateChannelKey (.of 2) ∈
      (stateAfter Json.plain .full (.of 9) staleRun).sets (guildKeys (toString (Id.of (m := .guild) 1))) ∧
    ¬ GuildIndexExact (fun _ => some (.of 1)) (stateAfter Json.plain .full (.of 9) staleRun) := by
  have hlisted : privateChannelKey (.of 2) ∈ (stateAfter Json.plain .full (.of 9) staleRun).sets
      (guildKeys (toString (Id.of (m := .guild) 1))) := by decide +kernel
  have hgone : (stateAfter Json.plain .full (.of 9) staleRun).strings
      (privateChannelKey (.of 2)) = none := Option.isNone_iff_eq_none.mp (by decide +kernel)
  refine ⟨?_, hlisted, fun hex => ((hex (.of 1) _).mp hlisted).1 hgone⟩
  intro step hstep
  rcases List.mem_pair.mp hstep with rfl | rfl
  · rintro e rfl
    rfl
  · rintro e rfl
    trivial

end TwilightDispatch
