import TwilightDispatch.Index

/-!
# What an event leaves alone

Clearing a guild removes what the index of the guild lists, which is not the guild itself
(`Indexed.run_clearGuild`).
An event leaves the value of an entity as it is if it does not name the entity and clears another
guild than the one the entity is part of (`strings_update_elsewhere`). Channels are excepted, because
the index of any guild may list them.
-/

namespace TwilightDispatch

open Atomic Redis

variable {T V : Type} {J : Json T V} {cfg : Config} {botId : Id .user} {env : Env} {s : Store T}
  {e : Entity} {v : Option T} {index : Id .guild → Prop}

/-- What does not concern the entity `e`, where the indexes of the guilds in `index` are read. -/
def elsewhere (e : Entity) (index : Id .guild → Prop) : Scope where
  entity e' := e' ≠ e
  index := index
  listed g key := e.guildOf ≠ some g → newKey key ≠ e.stored

/-- The index of a guild lists only what is part of the guild, channels apart. -/
theorem Indexed.guildOf_of_listed (h : Indexed s) (he : e.kind ≠ CHANNEL_KEY) {g : Id .guild}
    {key : String} (hkey : key ∈ s.sets (guildKeys (toString g))) (heq : newKey key = e.stored) :
    e.guildOf = some g := by
  have hkind : kindOf key ≠ CHANNEL_KEY := by
    rwa [← kindOf_newKey, heq, kindOf_stored]
  obtain ⟨-, hm⟩ := (h.listed _ _ fun hc => absurd hc hkind).mp hkey
  rw [newKey_eq_of_kind_ne hkind] at heq
  rw [heq, mem_setMembers_stored] at hm
  exact (guildKeys_mem_indexes.mp hm).2

/-- Clearing a guild returns the value that is stored for it. -/
theorem Indexed.run_clearGuild {ok : Entity → Prop} (hi : Indexed s) (hk : Known J ok s)
    (hJ : J.Lawful) (orders : Orders) (g : Id .guild) : ∃ old,
      Fallible.run exec (clearGuild J.value orders g) s = (.ok old, cleared orders g s) ∧
        (s.strings (guildKey g)).map J.value = old.map .ok := by
  have hget : (unlisted orders g s).strings (guildKey g) = s.strings (guildKey g) := by
    unfold unlisted
    rw [strings_dropAll, if_neg]
    intro hmem
    obtain ⟨key, hkey, heq⟩ := List.mem_map.mp hmem
    have hguild : (Entity.guild g).kind ≠ CHANNEL_KEY := (by decide : GUILD_KEY ≠ CHANNEL_KEY)
    exact nomatch hi.guildOf_of_listed (e := .guild g) hguild
      ((orders.mem_listing _ _).mp hkey) heq
  cases ht : s.strings (guildKey g) with
  | none =>
    exact ⟨none, TwilightDispatch.run_clearGuild (run_get_none (hget.trans ht)), rfl⟩
  | some t =>
    obtain ⟨e, i, -, -, -, rfl⟩ := hk _ t ht
    obtain ⟨v, hv⟩ := hJ.value i
    exact ⟨some v, TwilightDispatch.run_clearGuild (run_get_some (hget.trans ht) hv),
      congrArg some hv⟩

theorem lastOf_storedPairs_eq_none {kvs : List (String × Item)} {k : String}
    (h : ∀ kv ∈ kvs, newKey kv.1 ≠ k) : lastOf (storedPairs J kvs) k = none := by
  refine lastOf_eq_none_iff.mpr fun hmem => ?_
  obtain ⟨pair, hpair, rfl⟩ := List.mem_map.mp hmem
  obtain ⟨kv, hkv, rfl⟩ := List.mem_map.mp hpair
  exact h kv hkv rfl

/-- The indexes agree with the string map, and the value of `e` is `v`. -/
def Held (e : Entity) (v : Option T) (s : Store T) : Prop := Indexed s ∧ s.strings e.stored = v

theorem Held.put {kvs : List (String × Item)} (h : Held e v s) (he : e.kind ≠ CHANNEL_KEY)
    (hkvs : ∀ kv ∈ kvs, Writes (elsewhere e index).entity kv) : Held e v (putAll J kvs s) := by
  refine ⟨(Indexed.stable (J := J) fun _ => True).put kvs s (fun kv hkv => ?_) h.1, ?_⟩
  · obtain ⟨e', -, he'⟩ := hkvs kv hkv
    exact ⟨e', trivial, he'⟩
  · have hnone : lastOf (storedPairs J kvs) e.stored = none := by
      refine lastOf_eq_none_iff.mpr fun hmem => ?_
      obtain ⟨pair, hpair, hk⟩ := List.mem_map.mp hmem
      obtain ⟨kv, hkv, rfl⟩ := List.mem_map.mp hpair
      obtain ⟨e', hne, hkey, -⟩ := hkvs kv hkv
      have hstored : e'.stored = e.stored := by
        rw [← newKey_key, hkey]
        exact hk
      exact hne (Entity.stored_inj hstored.symm he).symm
    rw [strings_putAll, hnone]
    exact h.2

theorem Held.keeps_delAll (J : Json T V) {keys : List String} {orders : Orders}
    (hkeys : ∀ key ∈ keys, newKey key ≠ e.stored) :
    Keeps exec (Held (T := T) e v) (delAll orders keys) fun _ => True :=
  .of_run fun s hs => by
    rw [run_delAll]
    refine ⟨(Indexed.stable (J := J) fun _ => True).drop keys s hs.1, ?_⟩
    rw [strings_dropAll, if_neg]
    · exact hs.2
    · intro hmem
      obtain ⟨key, hkey, hk⟩ := List.mem_map.mp hmem
      exact hkeys key hkey hk

theorem closed_elsewhere (he : e.kind ≠ CHANNEL_KEY) :
    Closed (fun x Q => Keeps exec (Held e v) x Q) J cfg env (elsewhere e index) where
  toLogic := Keeps.logic _ _
  get _ _ := .of_run fun _ hs => hs
  mget _ _ := .of_run fun _ hs => hs
  members g _ s hs := by
    rw [run_getMembers]
    refine ⟨hs, fun keys hkeys key hkey hne heq => hne ?_⟩
    obtain rfl := Except.ok.inj hkeys
    exact hs.1.guildOf_of_listed he ((env.orders.mem_listing _ _).mp hkey) heq
  set kvs hkvs := .of_run fun s hs => by
    rw [run_setAll]
    exact hs.put he fun kv hkv => (hkvs kv hkv).1
  setExpire kvs exps hkvs _ := .of_run fun s hs => by
    rw [Fallible.run_bind_ok (run_setAll kvs), run_expireAll]
    have hput : Held e v (putAll J kvs s) := hs.put he hkvs
    cases deadlines J env.now exps with
    | none => exact hput
    | some fields =>
      exact ⟨(Indexed.stable (J := J) fun _ => True).hash (putAll J kvs s) _ rfl rfl hput.1, hput.2⟩
  del keys hkeys := Held.keeps_delAll J fun key hkey heq => by
    obtain ⟨e', hne, rfl⟩ := hkeys key hkey
    rw [newKey_key] at heq
    exact hne (Entity.stored_inj heq.symm he).symm

/-- An event leaves the value of an entity alone that it does not name, if it does not clear the guild
of the entity. -/
theorem strings_update_elsewhere {event : Event} (hs : Indexed s) (he : e.kind ≠ CHANNEL_KEY)
    (htouch : ∀ e', event.Touches e' → e'.Enabled cfg botId → e' ≠ e)
    (hclears : ∀ g, event.clears = some g → e.guildOf ≠ some g) :
    (Fallible.run exec (update J cfg botId env event) s).2.strings e.stored = s.strings e.stored := by
  have hclosed : ∀ index, Closed (fun x Q => Keeps exec (Held e (s.strings e.stored)) x Q) J cfg env
      (elsewhere e index) := fun _ => closed_elsewhere he
  have hkeeps : Keeps exec (Held e (s.strings e.stored)) (update J cfg botId env event)
      fun _ => True := by
    refine (hclosed fun _ => True).update ⟨htouch, fun _ _ => trivial⟩ fun hc => ?_
    -- a guild is cleared, of which the entity is no part
    refine (hclosed (e.guildOf ≠ some ·)).update_of_drop ⟨htouch, fun g hg => hclears g ?_⟩
      fun g hg keys hkeys => Held.keeps_delAll J fun key hkey => hkeys key hkey hg
    cases event <;> first | exact hg | exact absurd rfl hc
  exact (hkeeps s ⟨hs, rfl⟩).1.2

end TwilightDispatch
