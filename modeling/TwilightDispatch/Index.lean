import TwilightDispatch.Run

/-!
# The index sets

The indexes are a second representation of the keys of the string map. `Indexed` says that they
agree with it: a stored key is listed where `set_all` would list it, and nowhere else. It is kept
by every batch of writes and every batch of deletions, whatever their keys, with one exception:
nothing is said about channels in the index of a guild, because a channel's stored key no longer
names its guild.

`Known` says what a stored entry is: an entity under its stored key, with the text of one of its
values.
-/

namespace TwilightDispatch

open Atomic Redis

variable {T V : Type} {J : Json T V} {s : Store T} {k S key : String}

/-! ## Stored keys -/

/-- A key is stored as it is, or it is the key of a channel of a guild. -/
theorem newKey_cases (key : String) : newKey key = key ∨
    ∃ g c rest, split key = CHANNEL_KEY :: g :: c :: rest ∧
      split (newKey key) = [CHANNEL_KEY, c] := by
  by_cases h : (split key).length > 2 ∧ (split key).getD 0 "" = CHANNEL_KEY
  · obtain ⟨hlen, hkind⟩ := h
    obtain ⟨a, g, c, rest, hsplit⟩ : ∃ a g c rest, split key = a :: g :: c :: rest := by
      rcases hs : split key with _ | ⟨a, _ | ⟨g, _ | ⟨c, rest⟩⟩⟩
      all_goals first | exact ⟨_, _, _, _, rfl⟩ | simp [hs] at hlen
    obtain rfl : a = CHANNEL_KEY := by simpa [hsplit] using hkind
    refine Or.inr ⟨g, c, rest, hsplit, ?_⟩
    have hmem : c ∈ split key := by simp [hsplit]
    have hc : ':' ∉ c.toList := colon_notMem_of_mem_split hmem
    have hnew : newKey key = CHANNEL_KEY ++ ":" ++ c := by simp [newKey, hsplit]
    rw [hnew, split_pair (by decide) hc]
  · exact Or.inl (if_neg h)

@[simp] theorem newKey_newKey (key : String) : newKey (newKey key) = newKey key := by
  rcases newKey_cases key with h | ⟨g, c, rest, -, h⟩
  · rw [h, h]
  · generalize newKey key = k at h
    exact if_neg (by simp [h])

@[simp] theorem kindOf_newKey (key : String) : kindOf (newKey key) = kindOf key := by
  rcases newKey_cases key with h | ⟨g, c, rest, h, h'⟩
  · rw [h]
  · unfold kindOf
    rw [h, h']
    rfl

theorem newKey_eq_of_kind_ne (h : kindOf key ≠ CHANNEL_KEY) : newKey key = key := by
  rcases newKey_cases key with h' | ⟨g, c, rest, h', -⟩
  · exact h'
  · exact absurd (by unfold kindOf; rw [h']; rfl) h

@[simp] theorem newKey_stored (e : Entity) : newKey e.stored = e.stored := by
  rw [← newKey_key, newKey_newKey]

/-- Everything is listed under its stored key. -/
theorem eq_newKey_of_mem_setMembers (h : (S, k) ∈ setMembers key) : k = newKey key := by
  unfold setMembers at h
  simp only [List.mem_append] at h
  rcases h with h | h
  · split_ifs at h
    · exact congrArg Prod.snd (List.mem_singleton.mp h)
    · cases h
  · split_ifs at h
    · exact congrArg Prod.snd (List.mem_singleton.mp h)
    · exact congrArg Prod.snd (List.mem_singleton.mp h)
    · cases h

/-- The entries of a key are those of its stored key, except for a channel in the index of its
guild. -/
theorem mem_setMembers_iff (hS : kindOf k = CHANNEL_KEY → ∀ g, S ≠ guildKeys g) :
    (S, k) ∈ setMembers key ↔ newKey key = k ∧ (S, k) ∈ setMembers k := by
  rcases newKey_cases key with h | ⟨g, c, rest, h, h'⟩
  · constructor
    · intro hm
      have hk : k = key := (eq_newKey_of_mem_setMembers hm).trans h
      exact ⟨h.trans hk.symm, hk ▸ hm⟩
    · rintro ⟨hk, hm⟩
      rw [h] at hk
      rwa [hk]
  · -- a channel of a guild has one entry more than its stored key
    have hkey : setMembers key = [(kindKeys CHANNEL_KEY, newKey key), (guildKeys g, newKey key)] := by
      simp [setMembers, h, CHANNEL_KEY, MESSAGE_KEY]
    have hnew : setMembers (newKey key) = [(kindKeys CHANNEL_KEY, newKey key)] := by
      simp [setMembers, h']
    have hkind : kindOf (newKey key) = CHANNEL_KEY := by
      unfold kindOf
      rw [h']
      rfl
    constructor
    · intro hm
      obtain rfl := eq_newKey_of_mem_setMembers hm
      rw [hkey] at hm
      rw [hnew]
      have hg := hS hkind g
      exact ⟨rfl, by simpa [hg] using hm⟩
    · rintro ⟨rfl, hm⟩
      rw [hnew] at hm
      rw [hkey]
      exact List.mem_cons.mpr (Or.inl (List.mem_singleton.mp hm))

theorem exists_mem_setMembers_iff {ι : Type} (l : List ι) (f : ι → String)
    (hS : kindOf k = CHANNEL_KEY → ∀ g, S ≠ guildKeys g) :
    (∃ i ∈ l, (S, k) ∈ setMembers (f i)) ↔ (∃ i ∈ l, newKey (f i) = k) ∧ (S, k) ∈ setMembers k := by
  constructor
  · rintro ⟨i, hi, hm⟩
    obtain ⟨hnew, hk⟩ := (mem_setMembers_iff hS).mp hm
    exact ⟨⟨i, hi, hnew⟩, hk⟩
  · rintro ⟨⟨i, hi, hnew⟩, hk⟩
    exact ⟨i, hi, (mem_setMembers_iff hS).mpr ⟨hnew, hk⟩⟩

/-! ## The indexes agree with the string map -/

/-- The indexes agree with the string map, channels in the index of a guild apart. -/
structure Indexed (s : Store T) : Prop where
  stored : ∀ k, s.Has k → newKey k = k
  listed : ∀ S k, (kindOf k = CHANNEL_KEY → ∀ g, S ≠ guildKeys g) →
    (k ∈ s.sets S ↔ s.Has k ∧ (S, k) ∈ setMembers k)

theorem Indexed.empty : Indexed (Store.empty : Store T) where
  stored k hk := (Store.not_has_empty k hk).elim
  listed S k _ := by simp [Store.empty, Store.Has]

/-- Any batches of writes and deletions keep the indexes in agreement. -/
theorem Indexed.stable (ok : Entity → Prop) :
    Stable J ok (Indexed (T := T)) where
  put kvs s _ h := by
    constructor
    · intro k hk
      rcases has_putAll.mp hk with hk | ⟨kv, _, rfl⟩
      · exact h.stored k hk
      · exact newKey_newKey _
    · intro S k hS
      rw [mem_sets_putAll, has_putAll, h.listed S k hS, exists_mem_setMembers_iff kvs Prod.fst hS,
        or_and_right]
  drop keys s h := by
    constructor
    · intro k hk
      exact h.stored k (has_dropAll.mp hk).1
    · intro S k hS
      rw [mem_sets_dropAll, has_dropAll, h.listed S k hS,
        exists_mem_setMembers_iff keys (fun key => key) hS]
      constructor
      · rintro ⟨⟨hk, hm⟩, hn⟩
        exact ⟨⟨hk, fun hd => hn ⟨hd, hm⟩⟩, hm⟩
      · rintro ⟨⟨hk, hn⟩, hm⟩
        exact ⟨⟨hk, hm⟩, fun hd => hn hd.1⟩
  hash s s' hstr hset h := by
    constructor
    · intro k hk
      exact h.stored k (by unfold Store.Has at hk ⊢; rwa [hstr])
    · intro S k hS
      have := h.listed S k hS
      unfold Store.Has at this ⊢
      rwa [hstr, hset] at this

/-! ## The indexes of an entity -/

/-- The stored keys of two entities differ, channels apart. -/
theorem Entity.stored_inj {e e' : Entity} (h : e.stored = e'.stored)
    (he : e.kind ≠ CHANNEL_KEY) : e = e' := by
  have hkind : e.kind = e'.kind := by rw [← kindOf_stored, h, kindOf_stored]
  have hsplit : split e.stored = split e'.stored := by rw [h]
  cases e <;> cases e' <;> simp only [Entity.kind] at hkind <;>
    first
    | rfl
    | exact absurd rfl he
    | exact absurd hkind (by decide)
    | simpa [Entity.stored, Entity.key] using hsplit

/-- The indexes that list an entity under its stored key, the index of a channel's guild apart. -/
def Entity.indexes : Entity → List String
  | botUser => []
  | guild _ => [kindKeys GUILD_KEY]
  | channel _ _ => [kindKeys CHANNEL_KEY]
  | message c _ => [kindKeys MESSAGE_KEY, channelKeys (toString c)]
  | role g _ => [kindKeys ROLE_KEY, guildKeys (toString g)]
  | emoji g _ => [kindKeys EMOJI_KEY, guildKeys (toString g)]
  | member g _ => [kindKeys MEMBER_KEY, guildKeys (toString g)]
  | presence g _ => [kindKeys PRESENCE_KEY, guildKeys (toString g)]
  | voice g _ => [kindKeys VOICE_KEY, guildKeys (toString g)]

theorem setMembers_stored (e : Entity) : setMembers e.stored = e.indexes.map (·, e.stored) := by
  unfold setMembers
  rw [newKey_stored]
  cases e <;>
    simp [Entity.stored, Entity.key, Entity.indexes, MESSAGE_KEY, ROLE_KEY, EMOJI_KEY, MEMBER_KEY,
      PRESENCE_KEY, VOICE_KEY]

@[simp] theorem mem_setMembers_stored (e : Entity) :
    (S, e.stored) ∈ setMembers e.stored ↔ S ∈ e.indexes := by
  rw [setMembers_stored]
  simp

theorem kindKeys_mem_indexes {e : Entity} {kind : String} (hk : ':' ∉ kind.toList) :
    kindKeys kind ∈ e.indexes ↔ e.kind = kind ∧ e ≠ .botUser := by
  cases e <;>
    simp [Entity.indexes, Entity.kind, kindKeys_ne_guildKeys hk, kindKeys_ne_channelKeys hk,
      eq_comm]

theorem guildKeys_mem_indexes {e : Entity} {g : Id .guild} :
    guildKeys (toString g) ∈ e.indexes ↔ e.kind ≠ CHANNEL_KEY ∧ e.guildOf = some g := by
  cases e <;>
    simp (disch := decide) only [Entity.indexes, Entity.kind, Entity.guildOf, List.mem_cons,
      guildKeys_ne_kindKeys, guildKeys_inj, guildKeys_ne_channelKeys, Id.toString_inj] <;>
    simp [CHANNEL_KEY, ROLE_KEY, EMOJI_KEY, MEMBER_KEY, PRESENCE_KEY, VOICE_KEY, eq_comm]

theorem channelKeys_mem_indexes {e : Entity} {c : Id .channel} :
    channelKeys (toString c) ∈ e.indexes ↔ ∃ m, e = .message c m := by
  cases e <;>
    simp (disch := decide) [Entity.indexes, channelKeys_ne_kindKeys, eq_comm]

/-! ## What is stored -/

/-- Every stored text is that of a value of the entity whose key it is stored under. -/
def Known (J : Json T V) (ok : Entity → Prop) (s : Store T) : Prop :=
  ∀ k t, s.strings k = some t →
    ∃ (e : Entity) (i : Item), ok e ∧ e.stored = k ∧ e.Holds i ∧ t = J.text i

theorem Known.empty {ok : Entity → Prop} :
    Known J ok (Store.empty : Store T) := nofun

theorem Known.stable (ok : Entity → Prop) :
    Stable J ok (Known J ok) where
  put kvs s hkvs h k t hk := by
    rw [strings_putAll, Option.or_eq_some_iff] at hk
    rcases hk with hk | ⟨_, hk⟩
    · obtain ⟨kv, hkv, heq⟩ := List.mem_map.mp (mem_of_lastOf hk)
      obtain ⟨e, he, hkey, hi⟩ := hkvs kv hkv
      obtain ⟨hk', ht⟩ := Prod.mk.inj heq
      refine ⟨e, kv.2, he, ?_, hi, ht.symm⟩
      rw [← newKey_key, hkey, hk']
    · exact h k t hk
  drop keys s h k t hk := by
    rw [strings_dropAll] at hk
    split_ifs at hk
    exact h k t hk
  hash s s' hstr _ h k t hk := h k t (by rwa [hstr])

theorem Known.entity {ok : Entity → Prop} (h : Known J ok s)
    (hk : s.Has k) : ∃ e : Entity, ok e ∧ e.stored = k := by
  obtain ⟨t, ht⟩ := Option.ne_none_iff_exists'.mp hk
  obtain ⟨e, i, he, hek, -⟩ := h k t ht
  exact ⟨e, he, hek⟩

/-! ## Deadlines -/

/-- The fields of the expiry hash are keys of members and messages, and their texts are dates. -/
def Deadlined (J : Json T V) (s : Store T) : Prop :=
  ∀ k t, (s.hashes EXPIRY_KEYS).lookup k = some t →
    ∃ (e : Entity) (d : FormattedDateTime),
      e.expirable = true ∧ e.stored = k ∧ t = J.text (.timestamp d)

theorem Deadlined.empty : Deadlined J (Store.empty : Store T) := nofun

theorem Entity.expirable_of_kind {e : Entity} (h : e.kind = MESSAGE_KEY ∨ e.kind = MEMBER_KEY) :
    e.expirable = true := by
  cases e <;> first | rfl | (simp only [Entity.kind] at h; exact absurd h (by decide))

theorem Entity.stored_of_expirable {e : Entity} (h : e.expirable = true) : e.stored = e.key := by
  cases e <;> first | rfl | cases h

theorem mem_deadlines {now : FormattedDateTime} {keys : List (String × UInt64)}
    {fields : List (String × T)} (h : deadlines J now keys = some fields) {kv : String × T}
    (hkv : kv ∈ fields) : ∃ d, (∃ e ∈ keys, e.1 = kv.1) ∧ kv.2 = J.text (.timestamp d) := by
  induction keys generalizing fields with
  | nil =>
    obtain rfl := Option.some.inj h
    cases hkv
  | cons e keys ih =>
    rw [deadlines_cons, Option.bind_eq_some_iff] at h
    obtain ⟨d, _, h⟩ := h
    obtain ⟨rest, hrest, rfl⟩ := Option.map_eq_some_iff.mp h
    rcases List.mem_cons.mp hkv with rfl | hkv
    · exact ⟨d, ⟨e, List.mem_cons_self, rfl⟩, rfl⟩
    · obtain ⟨d', ⟨e', he', hk⟩, ht⟩ := ih hrest hkv
      exact ⟨d', ⟨e', List.mem_cons_of_mem _ he', hk⟩, ht⟩

theorem Deadlined.keeps_delAll (orders : Orders) (keys : List String) :
    Keeps exec (Deadlined (T := T) J) (delAll orders keys) fun _ => True :=
  .of_run fun s hs => by
    rw [run_delAll]
    exact hs

theorem Deadlined.closed {cfg : Config} {ok : Entity → Prop} (env : Env) :
    Closed (fun x Q => Keeps exec (Deadlined (T := T) J) x Q) J cfg env (.any ok) := by
  refine .of_keeps (fun c hc => .of_run fun s hs => ?_) (fun kvs _ => .of_run fun s hs => ?_)
    (fun kvs exps hkvs hexps => .of_run fun s hs => ?_) fun keys _ => keeps_delAll env.orders keys
  · cases c with
    | get | mget | smembers | scard | hgetall => exact hs
    | _ => exact hc.elim
  · rw [run_setAll]
    exact hs
  · rw [Fallible.run_bind_ok (run_setAll kvs), run_expireAll]
    cases hd : deadlines J env.now exps with
    | none => exact hs
    | some fields =>
      intro k t ht
      simp only [lookup_hset, if_true, hashes_putAll, Option.or_eq_some_iff] at ht
      rcases ht with ht | ⟨_, ht⟩
      · obtain ⟨d, ⟨x, hx, hk⟩, ht⟩ := mem_deadlines hd (mem_of_lastOf ht)
        obtain ⟨kv, hkv, hkey⟩ := List.mem_map.mp (hexps.written x hx)
        obtain ⟨e, -, he, -⟩ := hkvs kv hkv
        have hkind : e.kind = MESSAGE_KEY ∨ e.kind = MEMBER_KEY := by
          rw [← kindOf_key, he, hkey]
          exact hexps.kind x hx
        have hexp := Entity.expirable_of_kind hkind
        exact ⟨e, d, hexp, by rw [Entity.stored_of_expirable hexp, he, hkey, hk], ht⟩
      · exact hs k t ht

theorem Deadlined.next {cfg : Config} {botId : Id .user} {step : Step} (hs : Deadlined J s) :
    Deadlined J (step.next J cfg botId s) := by
  rcases step with ⟨env, event | _⟩
  · rw [Step.next_event]
    have hclosed : Closed (fun x Q => Keeps exec (Deadlined J) x Q) J cfg env (.any fun _ => True) :=
      Deadlined.closed env
    exact (hclosed.update_of_drop (Scope.any_covers fun _ _ => trivial).admits
      (fun _ _ keys _ => keeps_delAll env.orders keys) s hs).1
  · rw [Step.next_sweep]
    intro k t ht
    rw [lookup_hdel] at ht
    split_ifs at ht
    exact hs k t ht

theorem Deadlined.stateAfter {cfg : Config} {botId : Id .user} (steps : List Step) :
    Deadlined J (stateAfter J cfg botId steps) := by
  induction steps using List.reverseRecOn with
  | nil => exact .empty
  | append_singleton steps step ih =>
    rw [stateAfter_append]
    exact ih.next

end TwilightDispatch
