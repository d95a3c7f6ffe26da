import TwilightDispatch.Region

/-!
# Events about different guilds

The states considered here are those that the tasks of the service can reach together: events and
sweeps are started at any time, and the commands of those under way are executed in any order
(`Reachable`). The states of completed runs are among them.

The region of an event about a guild is part of the region of the guild, the regions of different
guilds are disjoint, and so events about different guilds do not interfere (`guilds_independent`).
-/

namespace TwilightDispatch

open Atomic Redis

variable {T V : Type} {J : Json T V} {cfg : Config} {botId : Id .user} {env : Env}
  {home : Id .channel → Option (Id .guild)} {s : Store T}

/-! ## Reachable states -/

/-- A state reached by events and sweeps under way together. -/
def Reachable (J : Json T V) (cfg : Config) (botId : Id .user)
    (home : Id .channel → Option (Id .guild)) (s : Store T) : Prop :=
  ∃ tasks, Reached exec (fun p => ∃ step : Step, step.Ok (HomeOnly home) ∧
    step.prog J cfg botId = p) Store.empty tasks s

theorem reachable_stateAfter {steps : List Step} (hok : ∀ step ∈ steps, step.Ok (HomeOnly home)) :
    Reachable J cfg botId home (stateAfter J cfg botId steps) := by
  induction steps using List.reverseRecOn with
  | nil => exact ⟨[], .init⟩
  | append_singleton steps step ih =>
    obtain ⟨tasks, h⟩ := ih fun step hstep => hok step (List.mem_append_left _ hstep)
    have hstart := h.start ⟨step, hok step (by simp), rfl⟩
    rw [stateAfter_append]
    exact hstart.run (List.getElem?_concat_length ..)

/-- A sweep works on the keys that have deadlines. -/
theorem sweep_confined {Inv : Store T → Prop} {R : Set Cell} (hInv : Shrinks Inv)
    (hfield : ∀ f, .field EXPIRY_KEYS f ∈ R)
    (hstr : ∀ s, Inv s → ∀ f, (s.hashes EXPIRY_KEYS).lookup f ≠ none →
      .str (newKey f) ∈ R ∧ ∀ S k, (S, k) ∈ setMembers f → .mem S k ∈ R) :
    Confined exec (cells T) Inv R (sweep J env) := by
  have hl := Confines.logic (ε := Failure) exec (cells T) Inv R
  have hread : Confines exec (cells T) Inv R (getHashmap env.orders EXPIRY_KEYS)
      fun hashmap => ∀ kv ∈ hashmap, .str (newKey kv.1) ∈ R ∧
        ∀ S k, (S, k) ∈ setMembers kv.1 → .mem S k ∈ R := by
    refine hl.bind (Q := fun fields => ∀ f, fields.lookup f ≠ none → .str (newKey f) ∈ R ∧
        ∀ S k, (S, k) ∈ setMembers f → .mem S k ∈ R)
      (confines_redis ?_ (fun _ hs => hs) fun s hs => hstr s hs) fun fields hfields => hl.pure ?_
    · rintro l ⟨f, rfl⟩
      exact hfield f
    · intro kv hkv
      obtain ⟨f, -, hf⟩ := List.mem_filterMap.mp hkv
      obtain ⟨t, ht, rfl⟩ := Option.map_eq_some_iff.mp hf
      exact hfields f (ht ▸ nofun)
  refine hread.bind_run fun r hr => ?_
  rcases r with _ | hashmap
  · exact confined_ret _
  have hkeys : ∀ key ∈ expiredKeys J env.now hashmap, .str (newKey key) ∈ R ∧
      ∀ S k, (S, k) ∈ setMembers key → .mem S k ∈ R := by
    intro key hkey
    obtain ⟨kv, hkv, hk⟩ := List.mem_filterMap.mp hkey
    have hname : kv.1 = key := by
      revert hk
      cases J.timestamp kv.2 with
      | error err => exact nofun
      | ok timestamp =>
        intro hk
        change (if _ then _ else _) = _ at hk
        split_ifs at hk
        exact Option.some.inj hk
    exact hname ▸ hr hashmap rfl kv hkv
  have hdel : Confines exec (cells T) Inv R
      (delAll env.orders (expiredKeys J env.now hashmap)) fun _ => True :=
    confines_delAll hInv (fun key hkey => (hkeys key hkey).1) fun key hkey => (hkeys key hkey).2
  refine hdel.confined.bind fun res => ?_
  rcases res with _ | _
  · exact confined_ret _
  have hhdel : Confines exec (cells T) Inv R
      (delHashmap EXPIRY_KEYS (expiredKeys J env.now hashmap)) fun _ => True := by
    refine hl.ite (fun _ => hl.pure trivial) fun _ =>
      confines_redis ?_ (hInv.hdel _ _) fun _ _ => trivial
    rintro l ⟨f, -, rfl⟩
    exact hfield f
  exact hhdel.confined.bind fun _ => confined_ret _

theorem Step.confined {step : Step} (hok : step.Ok (HomeOnly home)) :
    Confined exec (cells T) (Listing home) Set.univ (step.prog J cfg botId) := by
  rcases step with ⟨env, event | _⟩
  · exact ((update_confined hok).mono (Set.subset_univ _)).bind fun _ => confined_ret _
  · exact sweep_confined Listing.shrinks (fun _ => trivial) fun _ _ _ _ => ⟨trivial, fun _ _ _ => trivial⟩

theorem Reachable.listing (h : Reachable J cfg botId home s) : Listing home s := by
  obtain ⟨tasks, h⟩ := h
  have hconf : ∀ p, (∃ step : Step, step.Ok (HomeOnly home) ∧ step.prog J cfg botId = p) →
      Confined exec (cells T) (Listing home) Set.univ p := by
    rintro p ⟨step, hok, rfl⟩
    exact step.confined hok
  exact (Confined.reached hconf h Listing.empty).1

/-! ## Regions of guilds -/

/-- The guild an entity is of. A message is of the guild of its channel. -/
def Entity.owner (home : Id .channel → Option (Id .guild)) : Entity → Option (Id .guild)
  | guild g => some g
  | message c _ => home c
  | e => e.guildOf

theorem Entity.owner_eq_of_guildOf {e : Entity} {g : Id .guild} (h : e.guildOf = some g) :
    e.owner home = some g := by
  cases e <;> first | exact h | cases h

/-- The guild of an entity can be told from its stored key. -/
theorem Entity.owner_eq_of_stored {e e' : Entity} (he : HomeOnly home e) (he' : HomeOnly home e')
    (h : e.stored = e'.stored) : e.owner home = e'.owner home := by
  by_cases hkind : e.kind = CHANNEL_KEY
  · obtain ⟨g, c, rfl⟩ := Entity.eq_channel_of_kind hkind
    obtain ⟨g', c', rfl⟩ := Entity.eq_channel_of_kind (e := e') (by
      rw [← kindOf_stored, ← h, kindOf_stored, hkind])
    obtain rfl := privateChannelKey_inj.mp h
    exact he.symm.trans he'
  · rw [Entity.stored_inj h hkind]

/-- The cells of a guild. -/
def guildRegion (home : Id .channel → Option (Id .guild)) (G : Id .guild) : Set Cell
  | .str k => ∃ e : Entity, HomeOnly home e ∧ e.owner home = some G ∧ newKey k = e.stored
  | .mem S k => (∃ g : Id .guild, S = guildKeys (toString g) ∧ g = G) ∨
      (∀ g : Id .guild, S ≠ guildKeys (toString g)) ∧
        ∃ e : Entity, HomeOnly home e ∧ e.owner home = some G ∧ k = e.stored
  | .field _ f => ∃ e : Entity, HomeOnly home e ∧ e.owner home = some G ∧ newKey f = e.stored

theorem guildRegion_disjoint {G G' : Id .guild} (hG : G ≠ G') :
    Disjoint (guildRegion home G) (guildRegion home G') := by
  have howner : ∀ e e' : Entity, HomeOnly home e → HomeOnly home e' → e.owner home = some G →
      e'.owner home = some G' → e.stored ≠ e'.stored := by
    intro e e' he he' ho ho' hs
    refine hG (Option.some.inj ?_)
    rw [← ho, ← ho', Entity.owner_eq_of_stored he he' hs]
  rw [Set.disjoint_left]
  rintro (k | ⟨S, k⟩ | ⟨h, f⟩) hl hl'
  · obtain ⟨e, he, ho, hk⟩ := hl
    obtain ⟨e', he', ho', hk'⟩ := hl'
    exact howner e e' he he' ho ho' (hk.symm.trans hk')
  · rcases hl with ⟨g, hS, rfl⟩ | ⟨hS, e, he, ho, hk⟩
    · rcases hl' with ⟨g', hS', rfl⟩ | ⟨hS', -⟩
      · exact hG (Id.toString_inj.mp (guildKeys_inj.mp (hS.symm.trans hS')))
      · exact hS' g hS
    · rcases hl' with ⟨g', hS', rfl⟩ | ⟨-, e', he', ho', hk'⟩
      · exact hS g' hS'
      · exact howner e e' he he' ho ho' (hk.symm.trans hk')
  · obtain ⟨e, he, ho, hk⟩ := hl
    obtain ⟨e', he', ho', hk'⟩ := hl'
    exact howner e e' he he' ho ho' (hk.symm.trans hk')

/-! ## Events about a guild -/

/-- The guild an event is about. A message event is about the guild of its channel. -/
def Event.about (home : Id .channel → Option (Id .guild)) : Event → Option (Id .guild)
  | channelCreate data | channelDelete data | channelUpdate data => data.guildId
  | channelPinsUpdate data => data.guildId
  | guildCreate data => some data.id
  | guildDelete data => some data.id
  | guildEmojisUpdate data => some data.guildId
  | guildUpdate data => some data.id
  | memberAdd data => some data.guildId
  | memberRemove data => some data.guildId
  | memberUpdate data => some data.guildId
  | memberChunk data => some data.guildId
  | messageCreate data => home data.channelId
  | messageDelete data => home data.channelId
  | messageDeleteBulk data => home data.channelId
  | messageUpdate data => home data.channelId
  | presenceUpdate data => some data.guildId
  | roleCreate data | roleUpdate data => some data.guildId
  | roleDelete data => some data.guildId
  | unavailableGuild data => some data.id
  | voiceStateUpdate data => data.guildId
  | _ => none

section About

variable {event : Event} {G : Id .guild} (h : event.about home = some G)
include h

/-- What an event about a guild names is of that guild. -/
theorem Event.owner_of_touches {e : Entity} (he : event.Touches e) : e.owner home = some G := by
  cases event with
  | guildCreate data =>
    rcases he with rfl | ⟨hg, -⟩
    · exact h
    · exact (Entity.owner_eq_of_guildOf hg).trans h
  | guildEmojisUpdate data =>
    obtain ⟨id, rfl⟩ := he
    exact h
  | memberRemove data =>
    rcases he with rfl | rfl
    · exact h
    · exact h
  | memberChunk data =>
    obtain ⟨member, -, rfl⟩ := he
    exact h
  | messageDeleteBulk data =>
    obtain ⟨id, -, rfl⟩ := he
    exact h
  | voiceStateUpdate data =>
    obtain ⟨g, hg, rfl⟩ := he
    exact hg.symm.trans h
  | channelCreate | channelDelete | channelPinsUpdate | channelUpdate | guildDelete | guildUpdate |
    memberAdd | memberUpdate | messageCreate | messageDelete | messageUpdate | presenceUpdate |
    roleCreate | roleDelete | roleUpdate | unavailableGuild =>
    obtain rfl := he
    exact h
  | _ => cases h

/-- An event about a guild lists no other guild's index. -/
theorem Event.lists_of_about {g : Id .guild} (hg : event.lists = some g) : g = G := by
  cases event with
  | guildCreate | guildDelete | guildEmojisUpdate | unavailableGuild =>
    exact Option.some.inj (hg.symm.trans h)
  | _ => cases hg

/-- The region of an event about a guild is part of that guild's. -/
theorem region_subset (hok : ∀ e, event.Touches e → HomeOnly home e) :
    region home event ⊆ guildRegion home G := by
  have hreach : ∀ e, event.Reaches home e → HomeOnly home e ∧ e.owner home = some G := by
    rintro e (he | ⟨g, hg, he, hgo⟩)
    · exact ⟨hok e he, event.owner_of_touches h he⟩
    · exact ⟨he, event.lists_of_about h hg ▸ Entity.owner_eq_of_guildOf hgo⟩
  rintro (k | ⟨S, k⟩ | ⟨x, f⟩) hl
  · obtain ⟨e, he, hk⟩ := hl
    obtain ⟨hhome, ho⟩ := hreach e he
    refine ⟨e, hhome, ho, ?_⟩
    rcases hk with rfl | rfl
    · exact newKey_key e
    · exact newKey_stored e
  · rcases hl with ⟨g, hg, hS⟩ | ⟨e, he, hm⟩
    · exact Or.inl ⟨g, hS, event.lists_of_about h hg⟩
    · obtain ⟨hhome, ho⟩ := hreach e he
      by_cases hS : ∃ g : Id .guild, S = guildKeys (toString g)
      · obtain ⟨g, rfl⟩ := hS
        have hgo : e.owner home = some g := Entity.owner_eq_of_guildOf (guildOf_of_mem_setMembers hm)
        exact Or.inl ⟨g, rfl, Option.some.inj (hgo.symm.trans ho)⟩
      · exact Or.inr ⟨not_exists.mp hS, e, hhome, ho,
          (eq_newKey_of_mem_setMembers hm).trans (newKey_key e)⟩
  · obtain ⟨-, e, he, rfl⟩ := hl
    exact ⟨e, hok e he, event.owner_of_touches h he, newKey_key e⟩

end About

/-! ## Independence -/

/-- **Independence of guilds.** Two events about different guilds, interleaved command by command,
leave the state and return the values they do when one is run after the other, in either order. -/
theorem guilds_independent (hs : Reachable J cfg botId home s) {env₁ env₂ : Env}
    {event₁ event₂ : Event} {G₁ G₂ : Id .guild}
    (hok₁ : ∀ e, event₁.Touches e → HomeOnly home e)
    (hok₂ : ∀ e, event₂.Touches e → HomeOnly home e)
    (h₁ : event₁.about home = some G₁) (h₂ : event₂.about home = some G₂) (hG : G₁ ≠ G₂)
    {σ : List ℕ} {old₁ old₂ : Except Failure (Option V)} {s' : Store T}
    (hrun : Interleave exec σ [ExceptT.run (update J cfg botId env₁ event₁),
      ExceptT.run (update J cfg botId env₂ event₂)] s [old₁, old₂] s') :
    runAll exec [ExceptT.run (update J cfg botId env₁ event₁),
        ExceptT.run (update J cfg botId env₂ event₂)] s = ([old₁, old₂], s') ∧
      runAll exec [ExceptT.run (update J cfg botId env₂ event₂),
        ExceptT.run (update J cfg botId env₁ event₁)] s = ([old₂, old₁], s') := by
  have hconf₁ : Confined exec (cells T) (Listing home) (guildRegion home G₁)
      (ExceptT.run (update J cfg botId env₁ event₁)) :=
    (update_confined hok₁).mono (region_subset h₁ hok₁)
  have hconf₂ : Confined exec (cells T) (Listing home) (guildRegion home G₂)
      (ExceptT.run (update J cfg botId env₂ event₂)) :=
    (update_confined hok₂).mono (region_subset h₂ hok₂)
  exact hrun.comm_of_disjoint hconf₁ hconf₂ (guildRegion_disjoint hG) hs.listing

/-- Guild 1 has a role, which is deleted while guild 2 is deleted. -/
theorem guilds_independent_roleGuild :
    let s := stateAfter Json.plain .full (.of 9)
      [⟨.at (.of 0), .event (.roleCreate ⟨.of 1, ⟨.of 3, ""⟩⟩)⟩]
    let p := ExceptT.run (update Json.plain .full (.of 9) (.at (.of 0)) (.roleDelete ⟨.of 1, .of 3⟩))
    let q := ExceptT.run
      (update Json.plain .full (.of 9) (.at (.of 0)) (.guildDelete ⟨.of 2, false⟩))
    ∃ σ old₁ old₂ s', Interleave exec σ [p, q] s [old₁, old₂] s' ∧
      runAll exec [p, q] s = ([old₁, old₂], s') ∧ runAll exec [q, p] s = ([old₂, old₁], s') := by
  intro s p q
  have hs : Reachable Json.plain .full (.of 9) (fun _ => none) s := by
    refine reachable_stateAfter fun step hstep => ?_
    rw [List.mem_singleton.mp hstep]
    rintro e rfl
    trivial
  obtain ⟨σ, hσ⟩ := exists_interleave exec [p, q] s
  refine ⟨σ, _, _, _, hσ, guilds_independent hs ?_ ?_ rfl rfl ?_ hσ⟩
  · rintro e rfl
    trivial
  · rintro e rfl
    trivial
  · decide

end TwilightDispatch
