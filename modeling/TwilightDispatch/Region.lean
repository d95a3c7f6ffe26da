import TwilightDispatch.Guild

/-!
# Regions of events

Which cells of the store an event may read or write. An event works on the entities it names, and,
if it lists the index of a guild, on that index and on what belongs to the guild: nothing else is
ever listed there, whatever other tasks are under way (`Listing`).

Every event is confined to its region (`update_confined`). The region of an event about a guild is
part of the region of the guild, and the regions of different guilds are disjoint, so events about
different guilds do not interfere (`guilds_independent`).
-/

namespace TwilightDispatch

open Atomic Redis

variable {T V : Type} {J : Json T V} {cfg : Config} {botId : Id .user} {env : Env}
  {orders : Orders} {home : Id .channel → Option (Id .guild)} {g : Id .guild} {k S : String}

/-! ## What the index of a guild can list -/

theorem Entity.key_eq_stored {e : Entity} (h : e.kind ≠ CHANNEL_KEY) : e.key = e.stored := by
  cases e <;> first | rfl | exact absurd rfl h

/-- What is listed for the stored key of an entity is listed for its key. -/
theorem mem_setMembers_key {e : Entity} (h : (S, k) ∈ setMembers e.stored) :
    (S, k) ∈ setMembers e.key := by
  by_cases hkind : e.kind = CHANNEL_KEY
  · obtain ⟨g, c, rfl⟩ := Entity.eq_channel_of_kind hkind
    have hk : k = privateChannelKey c := by
      rw [eq_newKey_of_mem_setMembers h, newKey_stored]
      rfl
    subst hk
    refine (mem_setMembers_iff fun _ g' hS => ?_).mpr ⟨newKey_key _, h⟩
    have hset : setMembers (privateChannelKey c) = [(kindKeys CHANNEL_KEY, privateChannelKey c)] :=
      setMembers_stored (.channel none c)
    change (S, _) ∈ setMembers (privateChannelKey c) at h
    rw [hset, hS] at h
    exact guildKeys_ne_kindKeys (by decide) g' (Prod.mk.inj (List.mem_singleton.mp h)).1
  · rwa [Entity.key_eq_stored hkind]

/-- Only what is part of a guild is entered in its index. -/
theorem guildOf_of_mem_setMembers {e : Entity}
    (h : (guildKeys (toString g), k) ∈ setMembers e.key) : e.guildOf = some g := by
  by_cases hkind : e.kind = CHANNEL_KEY
  · obtain ⟨g', c, rfl⟩ := Entity.eq_channel_of_kind hkind
    exact (mem_setMembers_channel.mp h).1
  · have hk : k = e.stored := (eq_newKey_of_mem_setMembers h).trans (newKey_key e)
    rw [Entity.key_eq_stored hkind, hk] at h
    exact (guildKeys_mem_indexes.mp ((mem_setMembers_stored e).mp h)).2

/-- The indexes of the guilds list what belongs to them. -/
def Listing (home : Id .channel → Option (Id .guild)) (s : Store T) : Prop :=
  ∀ g k, k ∈ s.sets (guildKeys (toString g)) → Belongs home g k

theorem Listing.empty : Listing home (Store.empty : Store T) :=
  fun g k hk => by simp [Store.empty] at hk

theorem Listing.sadd {s : Store T} {ms : List String} (h : Listing home s)
    (hms : ∀ m ∈ ms, ∀ g, S = guildKeys (toString g) → Belongs home g m) :
    Listing home (apply (.sadd S ms) s) := by
  intro g k hk
  rcases mem_sets_sadd.mp hk with hk | ⟨hS, hk⟩
  · exact h g k hk
  · exact hms k hk g hS.symm

/-- An invariant that deletions keep. -/
structure Shrinks (Inv : Store T → Prop) : Prop where
  del : ∀ keys s, Inv s → Inv (apply (.del keys) s)
  srem : ∀ S ms s, Inv s → Inv (apply (.srem S ms) s)
  hdel : ∀ key fields s, Inv s → Inv (apply (.hdel key fields) s)

theorem Listing.shrinks : Shrinks (Listing home : Store T → Prop) where
  del _ _ h := h
  srem _ _ _ h g k hk := h g k (mem_sets_srem.mp hk).1
  hdel _ _ _ h := h

/-! ## Confinement of the operations -/

section Operations

variable {R : Set Cell} {Inv : Store T → Prop}

/-- A command is confined to a region that has its footprint. -/
theorem confines_redis {c : Cmd T} {Q : c.Answer → Prop}
    (hR : footprint c ⊆ R) (hInv : ∀ s, Inv s → Inv (apply c s))
    (hQ : ∀ s, Inv s → Q (reply c s)) : Confines exec (cells T) Inv R (redis c) Q := by
  intro s hs s' hm
  refine ⟨⟨(local_footprint c).mono hR, hInv s'⟩, fun s'' _ a ha => ?_⟩
  obtain rfl := Except.ok.inj ha
  exact hQ s' (hm hs)

theorem confines_setAll {kvs : List (String × Item)}
    (hstr : ∀ kv ∈ kvs, .str (newKey kv.1) ∈ R)
    (hmem : ∀ kv ∈ kvs, ∀ S k, (S, k) ∈ setMembers kv.1 → .mem S k ∈ R)
    (hmset : ∀ s, Inv s → Inv (apply (.mset (kvs.map fun kv => (newKey kv.1, J.text kv.2))) s))
    (hsadd : ∀ S ms s, (∀ m ∈ ms, ∃ kv ∈ kvs, (S, m) ∈ setMembers kv.1) → Inv s →
      Inv (apply (.sadd S ms) s)) :
    Confines exec (cells T) Inv R (setAll J orders kvs) fun _ => True := by
  have hl := Confines.logic (ε := Failure) exec (cells T) Inv R
  refine hl.ite (fun _ => hl.pure trivial) fun _ => hl.andThen (confines_redis ?_ ?_ ?_)
    fun _ => hl.forM fun entry hentry => confines_redis ?_ ?_ ?_
  · rintro l ⟨kv, hkv, rfl⟩
    obtain ⟨kv', hkv', rfl⟩ := List.mem_map.mp hkv
    exact hstr kv' hkv'
  · exact hmset
  · exact fun _ _ => trivial
  all_goals
    have hentries : ∀ m ∈ entry.2, ∃ kv ∈ kvs, (entry.1, m) ∈ setMembers kv.1 := fun m hm =>
      List.mem_flatMap.mp (exists_mem_members.mp ⟨entry.2, hentry, hm⟩)
  · rintro l ⟨m, hm, rfl⟩
    obtain ⟨kv, hkv, hS⟩ := hentries m hm
    exact hmem kv hkv _ _ hS
  · exact fun s hs => hsadd _ _ s hentries hs
  · exact fun _ _ => trivial

theorem confines_delAll {keys : List String} (hInv : Shrinks Inv) (hstr : ∀ key ∈ keys, .str (newKey key) ∈ R)
    (hmem : ∀ key ∈ keys, ∀ S k, (S, k) ∈ setMembers key → .mem S k ∈ R) :
    Confines exec (cells T) Inv R (delAll orders keys) fun _ => True := by
  have hl := Confines.logic (ε := Failure) exec (cells T) Inv R
  refine hl.ite (fun _ => hl.pure trivial) fun _ => hl.andThen (confines_redis ?_ ?_ ?_)
    fun _ => hl.forM fun entry hentry => confines_redis ?_ ?_ ?_
  · rintro l ⟨key, hkey, rfl⟩
    obtain ⟨key', hkey', rfl⟩ := List.mem_map.mp hkey
    exact hstr key' hkey'
  · exact hInv.del _
  · exact fun _ _ => trivial
  · rintro l ⟨m, hm, rfl⟩
    obtain ⟨key, hkey, hS⟩ := List.mem_flatMap.mp (exists_mem_members.mp ⟨entry.2, hentry, hm⟩)
    rw [delMembers_eq] at hS
    exact hmem key hkey _ _ hS
  · exact hInv.srem _ _
  · exact fun _ _ => trivial

theorem confines_expireAll {now : FormattedDateTime} {keys : List (String × UInt64)}
    (hfield : ∀ kv ∈ keys, .field EXPIRY_KEYS kv.1 ∈ R)
    (hhset : ∀ fields s, (∀ field ∈ fields, ∃ kv ∈ keys, field.1 = kv.1) → Inv s →
      Inv (apply (.hset EXPIRY_KEYS fields) s)) :
    Confines exec (cells T) Inv R (expireAll J now keys) fun _ => True := by
  have hl := Confines.logic (ε := Failure) exec (cells T) Inv R
  refine hl.bind (hl.mapM (R := fun kv field => field.1 = kv.1) fun kv _ => ?_) fun fields hfields =>
    hl.ite (fun _ => hl.pure trivial) fun _ => confines_redis ?_ (fun s hs => hhset fields s hfields hs)
      fun _ _ => trivial
  · unfold deadlineField
    cases now.add (milliseconds (asI64 kv.2)) with
    | some timestamp => exact hl.pure rfl
    | none => exact hl.throw
  · rintro l ⟨field, hf, rfl⟩
    obtain ⟨kv, hkv, hname⟩ := hfields field hf
    exact hname ▸ hfield kv hkv

end Operations

/-! ## Confinement of events -/

/-- The entities an event can work on: those it names, and those the index it lists can list. -/
def Event.Reaches (home : Id .channel → Option (Id .guild)) (event : Event) (e : Entity) : Prop :=
  event.Touches e ∨ ∃ g, event.lists = some g ∧ HomeOnly home e ∧ e.guildOf = some g

/-- The cells an event may read or write. -/
def region (home : Id .channel → Option (Id .guild)) (event : Event) : Set Cell
  | .str k => ∃ e : Entity, event.Reaches home e ∧ (k = e.key ∨ k = e.stored)
  | .mem S k => (∃ g, event.lists = some g ∧ S = guildKeys (toString g)) ∨
      ∃ e : Entity, event.Reaches home e ∧ (S, k) ∈ setMembers e.key
  | .field h f => h = EXPIRY_KEYS ∧ ∃ e : Entity, event.Touches e ∧ f = e.key

/-- What an event may work on. -/
def Event.scope (home : Id .channel → Option (Id .guild)) (event : Event) : Scope where
  entity := event.Touches
  index g := event.lists = some g
  listed := Belongs home

section Confinement

variable {event : Event}

theorem confines_setAll_region {kvs : List (String × Item)}
    (hkvs : ∀ kv ∈ kvs, Writes event.Touches kv) (hok : ∀ e, event.Touches e → HomeOnly home e) :
    Confines exec (cells T) (Listing home) (region home event) (setAll J orders kvs)
      fun _ => True := by
  refine confines_setAll (fun kv hkv => ?_) (fun kv hkv S k hm => ?_) (fun _ hs => hs)
    fun S ms s hms hs => hs.sadd fun m hm g hS => ?_
  · obtain ⟨e, he, hkey, -⟩ := hkvs kv hkv
    exact ⟨e, Or.inl he, Or.inr (by rw [← hkey, newKey_key])⟩
  · obtain ⟨e, he, hkey, -⟩ := hkvs kv hkv
    exact Or.inr ⟨e, Or.inl he, hkey ▸ hm⟩
  · obtain ⟨kv, hkv, hm⟩ := hms m hm
    obtain ⟨e, he, hkey, -⟩ := hkvs kv hkv
    rw [← hkey, hS] at hm
    refine ⟨e, hok e he, guildOf_of_mem_setMembers hm, ?_⟩
    rw [eq_newKey_of_mem_setMembers hm, newKey_key]

/-- What an event reads is in its region. -/
theorem Event.str_mem_region {key : String} (h : (event.scope home).Reads key) :
    .str key ∈ region home event := by
  rcases h with ⟨e, he, rfl⟩ | ⟨g, hg, e, he, hgo, rfl⟩
  · exact ⟨e, Or.inl he, Or.inl rfl⟩
  · exact ⟨e, Or.inr ⟨g, hg, he, hgo⟩, Or.inr rfl⟩

/-- What an event is put together from is confined to its region. -/
theorem Event.closed (hok : ∀ e, event.Touches e → HomeOnly home e) :
    Closed (fun x Q => Confines exec (cells T) (Listing home) (region home event) x Q) J cfg env
      (event.scope home) where
  toLogic := Confines.logic _ _ _ _
  get key hkey := by
    refine confines_redis ?_ (fun _ hs => hs) fun _ _ => trivial
    rintro l rfl
    exact event.str_mem_region hkey
  mget keys hkeys := by
    refine confines_redis ?_ (fun _ hs => hs) fun _ _ => trivial
    rintro l ⟨key, hkey, rfl⟩
    exact event.str_mem_region (hkeys key hkey)
  members g hg := by
    refine (Confines.logic _ _ _ _).bind (Q := fun keys => ∀ key ∈ keys, Belongs home g key)
      (confines_redis ?_ (fun _ hs => hs) fun s hs key hkey => hs g key hkey) fun keys hkeys =>
        (Confines.logic _ _ _ _).pure fun key hkey => hkeys key ((env.orders.mem_listing _ _).mp hkey)
    rintro l ⟨k, rfl⟩
    exact Or.inl ⟨g, hg, rfl⟩
  set kvs hkvs := confines_setAll_region (fun kv hkv => (hkvs kv hkv).1) hok
  setExpire kvs exps hkvs hexps := by
    refine (Confines.logic _ _ _ _).andThen (confines_setAll_region hkvs hok) fun _ =>
      confines_expireAll (fun x hx => ⟨rfl, ?_⟩) fun _ _ _ hs => hs
    obtain ⟨kv, hkv, hk⟩ := List.mem_map.mp (hexps.written x hx)
    obtain ⟨e, he, hkey, -⟩ := hkvs kv hkv
    exact ⟨e, he, by rw [hkey, hk]⟩
  del keys hkeys := by
    refine confines_delAll Listing.shrinks (fun key hkey => ?_) fun key hkey S k hm => ?_
    all_goals obtain ⟨e, he, rfl⟩ := hkeys key hkey
    · exact ⟨e, Or.inl he, Or.inr (newKey_key e)⟩
    · exact Or.inr ⟨e, Or.inl he, hm⟩

/-- **Confinement.** Whatever other tasks do, an event reads and writes only its region. -/
theorem update_confined (hok : ∀ e, event.Touches e → HomeOnly home e) :
    Confined exec (cells T) (Listing home) (region home event)
      (ExceptT.run (update J cfg botId env event)) := by
  refine ((event.closed hok).update_of_drop ⟨fun _ he _ => he, fun _ hg => hg⟩
    fun g hg keys hkeys => ?_).confined
  refine confines_delAll Listing.shrinks (fun key hkey => ?_) fun key hkey S k hm => ?_
  all_goals obtain ⟨e, he, hgo, rfl⟩ := hkeys key hkey
  · exact ⟨e, Or.inr ⟨g, hg, he, hgo⟩, Or.inr (newKey_stored e)⟩
  · exact Or.inr ⟨e, Or.inr ⟨g, hg, he, hgo⟩, mem_setMembers_key hm⟩

end Confinement

end TwilightDispatch
