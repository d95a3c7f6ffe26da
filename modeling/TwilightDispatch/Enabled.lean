import TwilightDispatch.Independence

/-!
# What may be cached

The switches of the configuration decide which entities may be cached (`Entity.Enabled`). Whatever
events and sweeps are under way together, no key of another entity is ever found in the string map,
in an index or among the deadlines (`disabled_not_cached`): every write is one of an enabled entity,
and everything else deletes.
-/

namespace TwilightDispatch

open Atomic Redis

variable {T V : Type} {J : Json T V} {cfg : Config} {botId : Id .user} {env : Env} {s : Store T}
  {k S : String}

/-- The key is found in the string map, in an index, or among the deadlines. -/
def Appears (s : Store T) (k : String) : Prop :=
  s.Has k ∨ (∃ S, k ∈ s.sets S) ∨ ∃ h, (s.hashes h).lookup k ≠ none

/-- A key of an enabled entity, as the code builds it or as it is stored. -/
def Allowed (cfg : Config) (botId : Id .user) (k : String) : Prop :=
  ∃ e : Entity, e.Enabled cfg botId ∧ (k = e.key ∨ k = e.stored)

/-- Only keys of enabled entities are found in the cache. -/
def OnlyEnabled (cfg : Config) (botId : Id .user) (s : Store T) : Prop :=
  ∀ k, Appears s k → Allowed cfg botId k

/-! ## Writes and deletions -/

theorem OnlyEnabled.empty : OnlyEnabled cfg botId (Store.empty : Store T) := by
  rintro k (h | ⟨S, h⟩ | ⟨S, h⟩)
  · exact absurd h (Store.not_has_empty k)
  · exact absurd h (Finset.notMem_empty k)
  · exact absurd rfl h

theorem OnlyEnabled.shrinks : Shrinks (OnlyEnabled cfg botId : Store T → Prop) where
  del keys s h := by
    rintro k (hk | hk)
    · refine h k (.inl fun hn => hk ?_)
      rw [strings_del, hn, ite_self]
    · exact h k (.inr hk)
  srem S ms s h := by
    rintro k (hk | ⟨S', hk⟩ | hk)
    · exact h k (.inl hk)
    · exact h k (.inr (.inl ⟨S', (mem_sets_srem.mp hk).1⟩))
    · exact h k (.inr (.inr hk))
  hdel key fields s h := by
    rintro k (hk | hk | ⟨H, hk⟩)
    · exact h k (.inl hk)
    · exact h k (.inr (.inl hk))
    · refine h k (.inr (.inr ⟨H, fun hn => hk ?_⟩))
      rw [lookup_hdel, hn, ite_self]

theorem OnlyEnabled.mset {items : List (String × T)} (h : OnlyEnabled cfg botId s)
    (hitems : ∀ kv ∈ items, Allowed cfg botId kv.1) :
    OnlyEnabled cfg botId (apply (.mset items) s) := by
  rintro k (hk | hk)
  · by_cases hin : k ∈ items.map Prod.fst
    · obtain ⟨kv, hkv, rfl⟩ := List.mem_map.mp hin
      exact hitems kv hkv
    · refine h k (.inl fun hn => hk ?_)
      rw [strings_mset, lastOf_eq_none_iff.mpr hin, hn]
      rfl
  · exact h k (.inr hk)

theorem OnlyEnabled.sadd {ms : List String} (h : OnlyEnabled cfg botId s)
    (hms : ∀ m ∈ ms, Allowed cfg botId m) : OnlyEnabled cfg botId (apply (.sadd S ms) s) := by
  rintro k (hk | ⟨S', hk⟩ | hk)
  · exact h k (.inl hk)
  · rcases mem_sets_sadd.mp hk with hk | ⟨-, hk⟩
    · exact h k (.inr (.inl ⟨S', hk⟩))
    · exact hms k hk
  · exact h k (.inr (.inr hk))

theorem OnlyEnabled.hset {fields : List (String × T)} (h : OnlyEnabled cfg botId s)
    (hfields : ∀ field ∈ fields, Allowed cfg botId field.1) :
    OnlyEnabled cfg botId (apply (.hset S fields) s) := by
  rintro k (hk | hk | ⟨H, hk⟩)
  · exact h k (.inl hk)
  · exact h k (.inr (.inl hk))
  · by_cases hin : k ∈ fields.map Prod.fst
    · obtain ⟨field, hf, rfl⟩ := List.mem_map.mp hin
      exact hfields field hf
    · refine h k (.inr (.inr ⟨H, fun hn => hk ?_⟩))
      rw [lookup_hset, lastOf_eq_none_iff.mpr hin, hn]
      exact ite_self _

/-! ## Events and sweeps -/

theorem confines_setAll_enabled {kvs : List (String × Item)} {orders : Orders}
    (hkvs : ∀ kv ∈ kvs, Writes (Entity.Enabled cfg botId) kv) :
    Confines exec (cells T) (OnlyEnabled cfg botId) Set.univ (setAll J orders kvs)
      fun _ => True := by
  refine confines_setAll (fun _ _ => trivial) (fun _ _ _ _ _ => trivial)
    (fun s hs => hs.mset fun kv hkv => ?_) fun S ms s hms hs => hs.sadd fun m hm => ?_
  · obtain ⟨kv', hkv', rfl⟩ := List.mem_map.mp hkv
    obtain ⟨e, he, hkey, -⟩ := hkvs kv' hkv'
    exact ⟨e, he, .inr (by rw [← hkey, newKey_key])⟩
  · obtain ⟨kv, hkv, hm⟩ := hms m hm
    obtain ⟨e, he, hkey, -⟩ := hkvs kv hkv
    exact ⟨e, he, .inr (by rw [eq_newKey_of_mem_setMembers hm, ← hkey, newKey_key])⟩

theorem closed_enabled : Closed (fun x Q => Confines exec (cells T) (OnlyEnabled cfg botId) Set.univ x Q)
    J cfg env (.any (Entity.Enabled cfg botId)) where
  toLogic := Confines.logic _ _ _ _
  get _ _ := confines_redis (Set.subset_univ _) (fun _ hs => hs) fun _ _ => trivial
  mget _ _ := confines_redis (Set.subset_univ _) (fun _ hs => hs) fun _ _ => trivial
  members _ _ := (Confines.logic _ _ _ _).andThen
    (confines_redis (Set.subset_univ _) (fun _ hs => hs) fun _ _ => trivial) fun _ =>
      (Confines.logic _ _ _ _).pure fun _ _ => trivial
  set kvs hkvs := confines_setAll_enabled fun kv hkv => (hkvs kv hkv).1
  setExpire kvs exps hkvs hexps := by
    refine (Confines.logic _ _ _ _).andThen (confines_setAll_enabled hkvs) fun _ =>
      confines_expireAll (fun _ _ => trivial) fun fields s hfields hs => hs.hset fun field hf => ?_
    obtain ⟨x, hx, hname⟩ := hfields field hf
    obtain ⟨kv, hkv, hk⟩ := List.mem_map.mp (hexps.written x hx)
    obtain ⟨e, he, hkey, -⟩ := hkvs kv hkv
    exact ⟨e, he, .inl (by rw [hname, ← hk, hkey])⟩
  del _ _ := confines_delAll OnlyEnabled.shrinks (fun _ _ => trivial) fun _ _ _ _ _ => trivial

theorem Step.confined_enabled (step : Step) :
    Confined exec (cells T) (OnlyEnabled cfg botId) Set.univ (step.prog J cfg botId) := by
  rcases step with ⟨env, event | _⟩
  · have hadmits : Scope.Admits cfg botId (.any (Entity.Enabled cfg botId)) event :=
      ⟨fun _ _ hen => hen, fun _ _ => trivial⟩
    have hupdate : Confines exec (cells T) (OnlyEnabled cfg botId) Set.univ
        (update J cfg botId env event) fun _ => True :=
      closed_enabled.update_of_drop hadmits fun _ _ _ _ =>
        confines_delAll OnlyEnabled.shrinks (fun _ _ => trivial) fun _ _ _ _ _ => trivial
    exact hupdate.confined.bind fun _ => confined_ret _
  · exact sweep_confined OnlyEnabled.shrinks (fun _ => trivial)
      fun _ _ _ _ => ⟨trivial, fun _ _ _ => trivial⟩

theorem OnlyEnabled.stateAfter (steps : List Step) :
    OnlyEnabled cfg botId (stateAfter J cfg botId steps) := by
  induction steps using List.reverseRecOn with
  | nil => exact .empty
  | append_singleton steps step ih =>
    rw [stateAfter_append]
    exact step.confined_enabled.run_keeps ih

/-! ## Disabled kinds -/

/-- The switch behind the kind of an enabled entity is on. The bot's own members have none. -/
structure SwitchedOn (cfg : Config) (botId : Id .user) (e : Entity) : Prop where
  presence : e.kind = PRESENCE_KEY → cfg.statePresence = true
  voice : e.kind = VOICE_KEY → cfg.stateVoice = true
  emoji : e.kind = EMOJI_KEY → cfg.stateEmoji = true
  message : e.kind = MESSAGE_KEY → cfg.stateMessage = true
  member : e.kind = MEMBER_KEY → cfg.stateMember = true ∨ ∃ g, e = .member g botId

theorem Entity.Enabled.switchedOn {e : Entity} (h : e.Enabled cfg botId) :
    SwitchedOn cfg botId e := by
  constructor
  case member =>
    intro hk
    cases e with
    | member g u => exact h.imp_right fun hu => ⟨g, by rw [hu]⟩
    | _ => simp [Entity.kind, BOT_USER_KEY, GUILD_KEY, CHANNEL_KEY, MESSAGE_KEY, ROLE_KEY, EMOJI_KEY,
        MEMBER_KEY, PRESENCE_KEY, VOICE_KEY] at hk
  -- in the four other fields only one kind is left
  all_goals
    intro hk
    cases e <;> first
      | exact h
      | simp [Entity.kind, BOT_USER_KEY, GUILD_KEY, CHANNEL_KEY, MESSAGE_KEY, ROLE_KEY, EMOJI_KEY,
          MEMBER_KEY, PRESENCE_KEY, VOICE_KEY] at hk

/-- What is found in the cache is switched on. -/
theorem OnlyEnabled.switchedOn (h : OnlyEnabled cfg botId s) (hk : Appears s k) :
    ∃ e : Entity, (k = e.key ∨ k = e.stored) ∧ kindOf k = e.kind ∧ SwitchedOn cfg botId e := by
  obtain ⟨e, he, hek⟩ := h k hk
  refine ⟨e, hek, ?_, he.switchedOn⟩
  rcases hek with rfl | rfl
  · exact kindOf_key e
  · exact kindOf_stored e

/-- **Disabled kinds are never stored**, whatever events and sweeps are under way together. -/
theorem disabled_not_cached {tasks : List (Prog (interface T) Unit)}
    (h : Reached exec (fun p => ∃ step : Step, step.prog J cfg botId = p) Store.empty tasks s)
    (hk : Appears s k) :
    (cfg.statePresence = false → kindOf k ≠ PRESENCE_KEY) ∧
    (cfg.stateVoice = false → kindOf k ≠ VOICE_KEY) ∧
    (cfg.stateEmoji = false → kindOf k ≠ EMOJI_KEY) ∧
    (cfg.stateMessage = false → kindOf k ≠ MESSAGE_KEY) ∧
    (cfg.stateMember = false → kindOf k = MEMBER_KEY → ∃ g, k = memberKey g botId) := by
  have hconf : ∀ p, (∃ step : Step, step.prog J cfg botId = p) →
      Confined exec (cells T) (OnlyEnabled cfg botId) Set.univ p := by
    rintro p ⟨step, rfl⟩
    exact step.confined_enabled
  have honly : OnlyEnabled cfg botId s := (Confined.reached hconf h OnlyEnabled.empty).1
  obtain ⟨e, hek, hkind, hon⟩ := honly.switchedOn hk
  rw [hkind]
  refine ⟨fun hoff hp => ?_, fun hoff hv => ?_, fun hoff hm => ?_, fun hoff hm => ?_,
    fun hoff hm => ?_⟩
  · exact Bool.false_ne_true (hoff ▸ hon.presence hp)
  · exact Bool.false_ne_true (hoff ▸ hon.voice hv)
  · exact Bool.false_ne_true (hoff ▸ hon.emoji hm)
  · exact Bool.false_ne_true (hoff ▸ hon.message hm)
  · rcases hon.member hm with hen | ⟨g, rfl⟩
    · exact absurd (hoff ▸ hen) Bool.false_ne_true
    · exact ⟨g, hek.elim id id⟩

/-- Nothing that can be switched off is cached. -/
def Config.minimal : Config :=
  { Config.full with
    stateMember := false, stateMessage := false, statePresence := false, stateEmoji := false
    stateVoice := false }

/-- A guild with two members, of which the user 9 is the bot, and their presences. -/
def twoMembers : Guild where
  id := .of 1
  name := ""
  channels := []
  emojis := [⟨.of 4, ""⟩]
  members := [⟨.of 1, 0, none, none, [], ⟨.of 8, ""⟩, ""⟩, ⟨.of 1, 0, none, none, [], ⟨.of 9, ""⟩, ""⟩]
  presences := [⟨.of 1, .of 8, ""⟩, ⟨.of 1, .of 9, ""⟩]
  roles := []
  voiceStates := []
  extra := ""

/-- The bot's own member is stored with everything switched off. -/
theorem disabled_not_cached_bot : ∃ tasks s, Reached exec
    (fun p => ∃ step : Step, step.prog Json.plain .minimal (.of 9) = p) Store.empty tasks s ∧
    Appears s (memberKey (.of 1) (.of 9)) ∧ ∃ g, memberKey (.of 1) (.of 9) = memberKey g (.of 9) := by
  let step : Step := ⟨.at (.of 0), .event (.guildCreate twoMembers)⟩
  have hstored : (((step.prog Json.plain .minimal (.of 9)).run exec Store.empty).2.strings
      (memberKey (.of 1) (.of 9))).isSome = true := by
    decide +kernel
  have hstart : Reached exec (fun p => ∃ step : Step, step.prog Json.plain .minimal (.of 9) = p)
      Store.empty [step.prog Json.plain .minimal (.of 9)] Store.empty := Reached.init.start ⟨_, rfl⟩
  obtain ⟨tasks, h⟩ := hstart.run (List.getElem?_cons_zero ..)
  have happears : Appears ((step.prog Json.plain .minimal (.of 9)).run exec Store.empty).2
      (memberKey (.of 1) (.of 9)) := .inl (Option.isSome_iff_ne_none.mp hstored)
  exact ⟨tasks, _, h, happears, (disabled_not_cached h happears).2.2.2.2 rfl
    (kindOf_key (.member (.of 1) (.of 9)))⟩

end TwilightDispatch
