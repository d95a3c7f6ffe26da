import TwilightDispatch.Emojis
import TwilightDispatch.Modify
import TwilightDispatch.Objects
import TwilightDispatch.Refresh

/-!
# The store holds the cache

`Represents` says that a store holds the objects of a cache and nothing else: the text of every value
under the key of its object, the objects in the indexes, the deadlines in the expiry hash. Every
operation of `cache.rs` on the store is one on the cache, so every run leaves the store that holds what
the run does to the cache (`represents_stateAfter`).

A cache is held by one store only (`Represents.unique`), so the orders in which the hash maps and sets
are iterated do not show (`stateAfter_orders`).
-/

namespace TwilightDispatch

open Atomic Redis

variable {T V : Type} {J : Json T V} {cfg : Config} {botId : Id .user} {c : Cache} {s : Store T}
  {e : Entity} {o o' : CacheObject} {k S : String} {orders : Orders}

/-! ## Keys and texts of objects -/

/-- The entity with the key an object is stored under. -/
def CacheObject.entity : CacheObject → Entity
  | botUser => .botUser
  | guild g => .guild g
  | channel c => .channel none c
  | message c m => .message c m
  | role g r => .role g r
  | emoji g e => .emoji g e
  | member g u => .member g u
  | presence g u => .presence g u
  | voice g u => .voice g u

/-- The key an object is stored under. -/
def CacheObject.key (o : CacheObject) : String := o.entity.key

/-- What is serialised for a value of an object. -/
def CacheObject.item : (o : CacheObject) → o.Value → Item
  | botUser, data => .currentUser data
  | guild _, .created data => .guild data
  | guild _, .updated data => .partialGuild data
  | guild _, .unavailable data => .unavailableGuild data
  | channel _, data => .channel data
  | message _ _, data => .message data
  | role _ _, data => .role data
  | emoji _ _, data => .emoji data
  | member _ _, data => .member data
  | presence _ _, data => .presence data
  | voice _ _, data => .voice data

@[simp] theorem CacheObject.object_entity (o : CacheObject) : o.entity.object = o := by
  cases o <;> rfl

theorem Entity.stored_eq (e : Entity) : e.stored = e.object.key := by
  cases e <;> rfl

theorem CacheObject.stored_entity (o : CacheObject) : o.entity.stored = o.key := by
  rw [Entity.stored_eq, object_entity]

@[simp] theorem CacheObject.newKey_key (o : CacheObject) : newKey o.key = o.key := by
  rw [← stored_entity, newKey_stored]

theorem CacheObject.eq_channel_of_kind (h : o.entity.kind = CHANNEL_KEY) : ∃ ch, o = .channel ch := by
  obtain ⟨g, ch, heq⟩ := Entity.eq_channel_of_kind h
  exact ⟨ch, by rw [← o.object_entity, heq]⟩

theorem CacheObject.key_inj : o.key = o'.key ↔ o = o' := by
  refine ⟨fun h => ?_, congrArg _⟩
  have hstored : o.entity.stored = o'.entity.stored := by rwa [stored_entity, stored_entity]
  by_cases hkind : o.entity.kind = CHANNEL_KEY
  · have hkind' : o'.entity.kind = CHANNEL_KEY := by
      rw [← kindOf_stored, ← hstored, kindOf_stored, hkind]
    obtain ⟨ch, rfl⟩ := eq_channel_of_kind hkind
    obtain ⟨ch', rfl⟩ := eq_channel_of_kind hkind'
    exact congrArg channel (privateChannelKey_inj.mp h)
  · rw [← o.object_entity, Entity.stored_inj hstored hkind, object_entity]

/-- The indexes that list a key that is written: those of its entity, and for a channel that is written
with a guild that of the guild. -/
theorem mem_setMembers_written : (S, k) ∈ setMembers e.key ↔ k = e.object.key ∧
    (S ∈ e.object.entity.indexes ∨ ∃ g ch, e = .channel (some g) ch ∧ S = guildKeys (toString g)) := by
  by_cases hkind : e.kind = CHANNEL_KEY
  · obtain ⟨_ | g, ch, rfl⟩ := Entity.eq_channel_of_kind hkind
    · have hset : setMembers (Entity.channel none ch).key = _ := setMembers_stored (.channel none ch)
      rw [hset]
      simp [Entity.indexes, CacheObject.entity, CacheObject.key, Entity.stored, Entity.key, channelKey,
        and_comm]
    · have hset : setMembers (Entity.channel (some g) ch).key = _ := setMembers_guildChannelKey g ch
      rw [hset]
      simp [Entity.indexes, CacheObject.entity, CacheObject.key, Entity.key, channelKey, or_and_right,
        and_comm]
  · have hstored : e.stored = e.key := by cases e <;> first | rfl | exact absurd rfl hkind
    have hindexes : e.object.entity.indexes = e.indexes := by cases e <;> rfl
    have hkey : (S, k) ∈ setMembers e.key ↔ k = e.stored ∧ S ∈ e.indexes := by
      rw [← hstored, setMembers_stored]
      simp [and_comm, eq_comm]
    rw [hkey, ← e.stored_eq, hindexes, or_iff_left]
    rintro ⟨g, ch, rfl, -⟩
    exact hkind rfl

/-! ## What a store holds -/

/-- The indexes of an object: those of its entity while it has a value, and those of the guilds it is
listed in. -/
def Cache.Lists (c : Cache) (S : String) (o : CacheObject) : Prop :=
  c.value o ≠ none ∧ S ∈ o.entity.indexes ∨
    ∃ g ch, o = .channel ch ∧ ch ∈ c.listed g ∧ S = guildKeys (toString g)

/-- The store holds the cache, and nothing else. -/
structure Represents (J : Json T V) (c : Cache) (s : Store T) : Prop where
  strings : ∀ o, s.strings o.key = (c.value o).map fun v => J.text (o.item v)
  sets : ∀ S o, o.key ∈ s.sets S ↔ c.Lists S o
  deadlines : ∀ o, (s.hashes EXPIRY_KEYS).lookup o.key =
    (c.deadline o).map fun d => J.text (.timestamp d)
  others : ∀ k, (∀ o : CacheObject, o.key ≠ k) → s.strings k = none ∧ (∀ S, k ∉ s.sets S) ∧
    (s.hashes EXPIRY_KEYS).lookup k = none
  hashes : ∀ h, h ≠ EXPIRY_KEYS → s.hashes h = ∅

theorem Represents.empty : Represents J Cache.empty (Store.empty : Store T) where
  strings _ := rfl
  sets S o := by simp [Store.empty, Cache.Lists, Cache.empty]
  deadlines _ := rfl
  others _ _ := ⟨rfl, fun _ => Finset.notMem_empty _, rfl⟩
  hashes _ _ := rfl

/-- One store holds the cache. -/
theorem Represents.unique {s' : Store T} (h : Represents J c s) (h' : Represents J c s') : s = s' := by
  refine Store.ext_cells (fun k => ?_) (fun S k => ?_) fun h₀ k => ?_
  · by_cases hk : ∃ o : CacheObject, o.key = k
    · obtain ⟨o, rfl⟩ := hk
      rw [h.strings, h'.strings]
    · rw [not_exists] at hk
      rw [(h.others k hk).1, (h'.others k hk).1]
  · by_cases hk : ∃ o : CacheObject, o.key = k
    · obtain ⟨o, rfl⟩ := hk
      rw [h.sets, h'.sets]
    · rw [not_exists] at hk
      exact iff_of_false ((h.others k hk).2.1 S) ((h'.others k hk).2.1 S)
  · by_cases hh : h₀ = EXPIRY_KEYS
    · subst hh
      by_cases hk : ∃ o : CacheObject, o.key = k
      · obtain ⟨o, rfl⟩ := hk
        rw [h.deadlines, h'.deadlines]
      · rw [not_exists] at hk
        rw [(h.others k hk).2.2, (h'.others k hk).2.2]
    · rw [h.hashes h₀ hh, h'.hashes h₀ hh]

/-! ## Writing -/

/-- The pair an entry is stored as. -/
def CacheEntry.pair (entry : CacheEntry) : String × Item := (entry.1.key, entry.1.object.item entry.2)

@[simp] theorem newKey_entity_key (e : Entity) : newKey e.key = e.object.key := by
  rw [newKey_key, e.stored_eq]

/-- What a store holds after the writing of one pair. -/
theorem strings_put (entry : CacheEntry) (k : String) : (putAll J [entry.pair] s).strings k =
    if entry.1.object.key = k then some (J.text (entry.1.object.item entry.2)) else s.strings k := by
  simp only [strings_putAll, storedPairs, CacheEntry.pair, List.map_cons, List.map_nil, lastOf_cons,
    lastOf_nil, Option.none_or, newKey_entity_key]
  split_ifs <;> simp

theorem Cache.lists_set {entry : CacheEntry} : (c.set entry).Lists S o ↔ c.Lists S o ∨
    o = entry.1.object ∧ (S ∈ entry.1.object.entity.indexes ∨
      ∃ g ch, entry.1 = .channel (some g) ch ∧ S = guildKeys (toString g)) := by
  unfold Lists
  simp only [mem_listed_set]
  by_cases ho : o = entry.1.object
  · subst ho
    rw [value_set_self]
    constructor
    · rintro (⟨-, hS⟩ | ⟨g, ch, hch, hl | he, hS⟩)
      · exact .inr ⟨rfl, .inl hS⟩
      · exact .inl (.inr ⟨g, ch, hch, hl, hS⟩)
      · exact .inr ⟨rfl, .inr ⟨g, ch, he, hS⟩⟩
    · rintro ((⟨-, hS⟩ | ⟨g, ch, hch, hl, hS⟩) | ⟨-, hS | ⟨g, ch, he, hS⟩⟩)
      · exact .inl ⟨Option.some_ne_none _, hS⟩
      · exact .inr ⟨g, ch, hch, .inl hl, hS⟩
      · exact .inl ⟨Option.some_ne_none _, hS⟩
      · exact .inr ⟨g, ch, by rw [he], .inr he, hS⟩
  · rw [value_set_of_ne ho]
    refine (or_congr_right ?_).trans (or_iff_left fun h => ho h.1).symm
    constructor
    · rintro ⟨g, ch, rfl, hl | he, hS⟩
      · exact ⟨g, ch, rfl, hl, hS⟩
      · exact absurd (by rw [he]) ho
    · rintro ⟨g, ch, hch, hl, hS⟩
      exact ⟨g, ch, hch, .inl hl, hS⟩

theorem Represents.set (h : Represents J c s) (entry : CacheEntry) :
    Represents J (c.set entry) (putAll J [entry.pair] s) where
  strings o := by
    rw [strings_put]
    by_cases ho : o = entry.1.object
    · subst ho
      rw [if_pos rfl, Cache.value_set_self]
      rfl
    · rw [if_neg fun hk => ho (CacheObject.key_inj.mp hk).symm, Cache.value_set_of_ne ho, h.strings]
  sets S o := by
    rw [mem_sets_putAll, h.sets, Cache.lists_set]
    simp [CacheEntry.pair, mem_setMembers_written, CacheObject.key_inj]
  deadlines := h.deadlines
  others k hk := by
    refine ⟨?_, fun S => ?_, (h.others k hk).2.2⟩
    · rw [strings_put, if_neg (hk _), (h.others k hk).1]
    · rw [mem_sets_putAll, not_or]
      refine ⟨(h.others k hk).2.1 S, ?_⟩
      rintro ⟨kv, hkv, hm⟩
      obtain rfl := List.mem_singleton.mp hkv
      exact hk _ (mem_setMembers_written.mp hm).1.symm
  hashes := h.hashes

theorem Represents.setAll (h : Represents J c s) (entries : List CacheEntry) :
    Represents J (c.setAll entries) (putAll J (entries.map CacheEntry.pair) s) := by
  induction entries generalizing c s with
  | nil =>
    rw [List.map_nil, putAll_nil]
    exact h
  | cons entry entries ih =>
    have hcons : (entry :: entries).map CacheEntry.pair =
        [entry.pair] ++ entries.map CacheEntry.pair := rfl
    rw [hcons, putAll_append]
    exact ih (h.set entry)

/-! ## Deleting -/

theorem strings_drop (e : Entity) (k : String) :
    (dropAll [e.key] s).strings k = if e.object.key = k then none else s.strings k := by
  simp [e.stored_eq, eq_comm]

theorem Cache.lists_del : (c.del e).Lists S o ↔ c.Lists S o ∧ ¬ (o = e.object ∧
    (S ∈ e.object.entity.indexes ∨ ∃ g ch, e = .channel (some g) ch ∧ S = guildKeys (toString g))) := by
  unfold Lists
  simp only [mem_listed_del, value_del]
  by_cases ho : o = e.object
  · subst ho
    simp only [if_true, ne_eq, not_true_eq_false, false_and, false_or, true_and, not_or, not_exists]
    constructor
    · rintro ⟨g, ch, hch, ⟨hl, he⟩, rfl⟩
      refine ⟨.inr ⟨g, ch, hch, hl, rfl⟩, fun hS => ?_, ?_⟩
      · rw [hch] at hS
        exact guildKeys_ne_kindKeys (by decide) _ (List.mem_singleton.mp hS)
      · rintro g' ch' ⟨rfl, hg⟩
        obtain rfl : ch' = ch := CacheObject.channel.inj hch
        obtain rfl := Id.toString_inj.mp (guildKeys_inj.mp hg)
        exact he rfl
    · rintro ⟨⟨-, hS⟩ | ⟨g, ch, hch, hl, hS⟩, hno, hne⟩
      · exact absurd hS hno
      · exact ⟨g, ch, hch, ⟨hl, fun he => hne g ch ⟨he, hS⟩⟩, hS⟩
  · simp only [ho, if_false, false_and, not_false_eq_true, and_true]
    refine or_congr_right ⟨?_, ?_⟩
    · rintro ⟨g, ch, hch, ⟨hl, -⟩, hS⟩
      exact ⟨g, ch, hch, hl, hS⟩
    · rintro ⟨g, ch, rfl, hl, hS⟩
      refine ⟨g, ch, rfl, ⟨hl, ?_⟩, hS⟩
      rintro rfl
      exact ho rfl

theorem Represents.del (h : Represents J c s) (e : Entity) :
    Represents J (c.del e) (dropAll [e.key] s) where
  strings o := by
    rw [strings_drop, h.strings, Cache.value_del]
    by_cases ho : o = e.object
    · subst ho
      rw [if_pos rfl, if_pos rfl]
      rfl
    · rw [if_neg fun hk => ho (CacheObject.key_inj.mp hk).symm, if_neg ho]
  sets S o := by
    rw [mem_sets_dropAll, h.sets, Cache.lists_del]
    simp [mem_setMembers_written, CacheObject.key_inj]
  deadlines := h.deadlines
  others k hk := by
    refine ⟨?_, fun S hS => ?_, (h.others k hk).2.2⟩
    · rw [strings_drop, if_neg (hk _), (h.others k hk).1]
    · exact (h.others k hk).2.1 S (mem_sets_dropAll.mp hS).1
  hashes := h.hashes

theorem Represents.delAll (h : Represents J c s) (entities : List Entity) :
    Represents J (c.delAll entities) (dropAll (entities.map Entity.key) s) := by
  induction entities generalizing c s with
  | nil =>
    rw [List.map_nil, dropAll_nil]
    exact h
  | cons e entities ih =>
    have hcons : (e :: entities).map Entity.key = [e.key] ++ entities.map Entity.key := rfl
    rw [hcons, dropAll_append]
    exact ih (h.del e)

/-- Deleting the keys of objects removes these objects. Channels stay listed. -/
theorem Represents.dropWhere (h : Represents J c s) {keys : List String} {p : CacheObject → Bool}
    (hkeys : ∀ k ∈ keys, ∃ o : CacheObject, o.key = k)
    (hp : ∀ o, c.value o ≠ none → (o.key ∈ keys ↔ p o = true)) :
    Represents J (c.dropWhere p) (dropAll keys s) := by
  have hnew : keys.map newKey = keys := by
    refine (List.map_congr_left fun k hk => ?_).trans (List.map_id keys)
    obtain ⟨o, rfl⟩ := hkeys k hk
    exact o.newKey_key
  have hset (S : String) (o : CacheObject) : (∃ k ∈ keys, (S, o.key) ∈ setMembers k) ↔
      o.key ∈ keys ∧ S ∈ o.entity.indexes := by
    have hiff (o' : CacheObject) : (S, o.key) ∈ setMembers o'.key ↔ o = o' ∧ S ∈ o.entity.indexes := by
      unfold CacheObject.key
      rw [mem_setMembers_written, ← CacheObject.key, CacheObject.object_entity, CacheObject.key_inj]
      constructor
      · rintro ⟨rfl, hS | ⟨g, ch, hch, -⟩⟩
        · exact ⟨rfl, hS⟩
        · cases o <;> cases hch
      · rintro ⟨rfl, hS⟩
        exact ⟨rfl, .inl hS⟩
    constructor
    · rintro ⟨k, hk, hm⟩
      obtain ⟨o', rfl⟩ := hkeys k hk
      obtain ⟨rfl, hS⟩ := (hiff o').mp hm
      exact ⟨hk, hS⟩
    · exact fun ⟨hk, hS⟩ => ⟨o.key, hk, (hiff o).mpr ⟨rfl, hS⟩⟩
  refine ⟨fun o => ?_, fun S o => ?_, h.deadlines, fun k hk => ⟨?_, fun S hS => ?_, ?_⟩, h.hashes⟩
  · rw [strings_dropAll, hnew, h.strings, Cache.value_dropWhere]
    by_cases ho : c.value o = none
    · simp [ho]
    · simp only [hp o ho]
      split_ifs <;> rfl
  · rw [mem_sets_dropAll, h.sets, hset]
    unfold Cache.Lists
    rw [Cache.value_dropWhere]
    constructor
    · rintro ⟨⟨ho, hS⟩ | hl, hn⟩
      · rw [hp o ho] at hn
        exact .inl ⟨by rwa [if_neg fun hpo => hn ⟨hpo, hS⟩], hS⟩
      · exact .inr hl
    · rintro (⟨ho, hS⟩ | ⟨g, ch, rfl, hl, rfl⟩)
      · split_ifs at ho with hpo
        · exact absurd rfl ho
        · exact ⟨.inl ⟨ho, hS⟩, fun hn => hpo ((hp o ho).mp hn.1)⟩
      · refine ⟨.inr ⟨g, ch, rfl, hl, rfl⟩, fun hn => ?_⟩
        exact guildKeys_ne_kindKeys (by decide) _ (List.mem_singleton.mp hn.2)
  · rw [strings_dropAll, (h.others k hk).1, ite_self]
  · exact (h.others k hk).2.1 S (mem_sets_dropAll.mp hS).1
  · exact (h.others k hk).2.2

/-- The index of a guild lists what is cleared with the guild. -/
theorem Represents.mem_guildKeys (h : Represents J c s) {g : Id .guild} (ho : c.value o ≠ none) :
    (o.key ∈ s.sets (guildKeys (toString g)) ∨ o.key = guildKey g) ↔ c.clearedWith g o = true := by
  have hguild : o.key = (CacheObject.guild g).key ↔ o = .guild g := CacheObject.key_inj
  change (o.key ∈ s.sets (guildKeys (toString g)) ∨ o.key = (CacheObject.guild g).key) ↔ _
  rw [h.sets, hguild]
  unfold Cache.Lists
  cases o <;>
    simp (disch := decide) [ho, Cache.clearedWith, CacheObject.guildOf, CacheObject.entity,
      Entity.indexes, guildKeys_ne_kindKeys, eq_comm]

/-- Every member of an index is the key of an object. -/
theorem Represents.object_of_mem (h : Represents J c s) (hk : k ∈ s.sets S) :
    ∃ o : CacheObject, o.key = k := by
  by_contra hno
  exact (h.others k (not_exists.mp hno)).2.1 S hk

/-- Clearing a guild removes it and what belongs to it. -/
theorem Represents.clear (h : Represents J c s) (orders : Orders) (g : Id .guild) :
    Represents J (c.clear g) (cleared orders g s) := by
  unfold cleared unlisted
  rw [← dropAll_append]
  refine h.dropWhere (fun k hk => ?_) fun o ho => ?_
  · rcases List.mem_append.mp hk with hk | hk
    · exact h.object_of_mem ((orders.mem_listing _ _).mp hk)
    · exact ⟨.guild g, (List.mem_singleton.mp hk).symm⟩
  · rw [List.mem_append, orders.mem_listing, List.mem_singleton, h.mem_guildKeys ho]

/-! ## Deadlines -/

/-- Deadlines that are written are given to their objects. -/
theorem Represents.stamp (h : Represents J c s) (objects : List CacheObject) (d : FormattedDateTime) :
    Represents J (c.stamp objects (some d)) (apply (.hset EXPIRY_KEYS
      ((objects.map CacheObject.key).map (·, J.text (.timestamp d)))) s) := by
  have hnone (k : String) (hk : k ∉ objects.map CacheObject.key) :
      lastOf ((objects.map CacheObject.key).map (·, J.text (.timestamp d))) k = none := by
    rw [lastOf_eq_none_iff, List.map_map]
    exact fun hmem => hk (by simpa using hmem)
  refine ⟨h.strings, h.sets, fun o => ?_, fun k hk => ⟨(h.others k hk).1, (h.others k hk).2.1, ?_⟩,
    fun h₀ hh => ?_⟩
  · rw [lookup_hset, if_pos rfl, h.deadlines]
    unfold Cache.stamp
    by_cases ho : o ∈ objects
    · rw [lastOf_map_const (List.mem_map_of_mem ho)]
      simp [ho]
    · rw [hnone]
      · simp [ho]
      · rintro hmem
        obtain ⟨o', ho', heq⟩ := List.mem_map.mp hmem
        obtain rfl := CacheObject.key_inj.mp heq
        exact ho ho'
  · rw [lookup_hset, if_pos rfl, (h.others k hk).2.2, hnone]
    · rfl
    · rintro hmem
      obtain ⟨o, -, rfl⟩ := List.mem_map.mp hmem
      exact hk o rfl
  · exact (Function.update_of_ne hh _ _).trans (h.hashes h₀ hh)

theorem deadlines_eq (now : FormattedDateTime) (ttl : UInt64) (keys : List String) :
    deadlines J now (keys.map (·, ttl)) = match deadlineAfter now ttl with
      | some d => some (keys.map (·, J.text (.timestamp d)))
      | none => if keys = [] then some [] else none := by
  cases hd : deadlineAfter now ttl with
  | some d => exact deadlines_map hd keys
  | none =>
    cases keys with
    | nil => rfl
    | cons key keys =>
      have hadd : now.add (milliseconds (asI64 ttl)) = none := hd
      rw [List.map_cons, deadlines_cons, hadd]
      rfl

/-- Objects are given their deadlines, if these are dates. -/
theorem Represents.expireAll (h : Represents J c s) (now : FormattedDateTime)
    (objects : List CacheObject) (ttl : UInt64) : Represents J (c.stamp objects (deadlineAfter now ttl))
      (Fallible.run exec (expireAll J now ((objects.map CacheObject.key).map (·, ttl))) s).2 := by
  rw [run_expireAll, deadlines_eq]
  cases deadlineAfter now ttl with
  | some d => exact h.stamp objects d
  | none =>
    have hsame : c.stamp objects none = c := by
      simp [Cache.stamp]
    rw [hsame]
    cases objects with
    | nil =>
      change Represents J c (apply (.hset EXPIRY_KEYS []) s)
      rwa [apply_hset_nil]
    | cons o objects => exact h

/-- A sweep removes what is overdue. -/
theorem Represents.sweep (h : Represents J c s) (hJ : J.Lawful) (env : Env) :
    Represents J (c.expire env.now)
      (apply (.hdel EXPIRY_KEYS (expired J env s)) (dropAll (expired J env s) s)) := by
  have hexpired (o : CacheObject) : o.key ∈ expired J env s ↔ c.overdue env.now o = true := by
    rw [mem_expired]
    unfold Cache.overdue
    rw [h.deadlines]
    cases c.deadline o with
    | none => simp
    | some d => simp [hJ.timestamp]
  have hkeys : ∀ k ∈ expired J env s, ∃ o : CacheObject, o.key = k := by
    intro k hk
    by_contra hno
    obtain ⟨t, -, ht, -⟩ := mem_expired.mp hk
    rw [(h.others k (not_exists.mp hno)).2.2] at ht
    cases ht
  have hdrop := h.dropWhere hkeys fun o _ => hexpired o
  refine ⟨hdrop.strings, hdrop.sets, fun o => ?_, fun k hk => ⟨(hdrop.others k hk).1,
    (hdrop.others k hk).2.1, ?_⟩, fun h₀ hh => ?_⟩
  · rw [lookup_hdel, hashes_dropAll, h.deadlines]
    simp only [hexpired, true_and, Cache.expire]
    split_ifs <;> rfl
  · rw [lookup_hdel, hashes_dropAll, (h.others k hk).2.2, ite_self]
  · exact (Function.update_of_ne hh _ _).trans (h.hashes h₀ hh)

/-! ## Events -/

theorem guildItems_entries (data : Guild) :
    guildItems cfg botId data = (data.entries cfg botId).map CacheEntry.pair := by
  unfold guildItems Guild.entries
  simp only [List.map_append, List.map_map]
  rfl

/-- What is returned does not change the store. -/
theorem run_andThen_pure_snd {α β : Type} (x : Api T α) (b : β) :
    (Fallible.run exec (x >>= fun _ => pure b) s).2 = (Fallible.run exec x s).2 := by
  rw [Fallible.run_bind]
  rcases Fallible.run exec x s with ⟨err | a, s'⟩ <;> rfl

/-- Without the switch nothing happens. -/
theorem Represents.ite {α : Type} {p : Prop} [Decidable p] {c' : Cache} {x : Api T α} {a : α}
    (h : Represents J c s) (hx : p → Represents J c' (Fallible.run exec x s).2) :
    Represents J (if p then c' else c) (Fallible.run exec (if p then x else pure a) s).2 := by
  split_ifs with hp
  · exact hx hp
  · exact h

/-- An object is written and given its deadline. -/
theorem Represents.setExpire {α : Type} (h : Represents J c s) (entry : CacheEntry)
    (hkey : entry.1.object.key = entry.1.key) (env : Env) (ttl : UInt64) (a : α) :
    Represents J ((c.set entry).stamp [entry.1.object] (deadlineAfter env.now ttl))
      (Fallible.run exec (do
        TwilightDispatch.set J env.orders entry.1.key (entry.1.object.item entry.2)
        TwilightDispatch.expire J env.now entry.1.key ttl
        return a) s).2 := by
  have hexpire := (h.set entry).expireAll env.now [entry.1.object] ttl
  rw [List.map_singleton, List.map_singleton, hkey] at hexpire
  rw [Fallible.run_bind_ok (run_set _ _), run_andThen_pure_snd]
  exact hexpire

/-- The members of a guild are given their deadlines. -/
theorem Represents.expireMembers (h : Represents J c s) (now : FormattedDateTime) (g : Id .guild)
    (members : List Member) (ttl : UInt64) :
    Represents J (c.stamp (members.map fun member => .member g member.user.id) (deadlineAfter now ttl))
      (Fallible.run exec (TwilightDispatch.expireAll J now
        (members.map fun member => (memberKey g member.user.id, ttl))) s).2 := by
  have hexpire := h.expireAll now (members.map fun member => .member g member.user.id) ttl
  rwa [List.map_map, List.map_map] at hexpire

/-- An emoji update leaves the listed emojis of its guild. -/
theorem Represents.emojis (h : Represents J c s) {data : GuildEmojisUpdate} {emojis : List Emoji}
    (hcached : Cached J s data.guildId emojis) :
    Represents J ((c.dropWhere (CacheObject.isEmojiOf data.guildId)).setAll
        (data.emojis.map fun emoji => ⟨.emoji data.guildId emoji.id, emoji⟩))
      (emojisUpdated J emojis data s) := by
  let unlisted (o : CacheObject) : Bool := o.isEmojiOf data.guildId &&
    !data.emojis.any fun emoji => o = .emoji data.guildId emoji.id
  have hkey (id : Id .emoji) : (CacheObject.emoji data.guildId id).key = emojiKey data.guildId id := rfl
  have hunlisted (id : Id .emoji) : unlisted (.emoji data.guildId id) =
      !data.emojis.any fun emoji => emoji.id = id := by
    simp [unlisted, CacheObject.isEmojiOf, eq_comm (a := id)]
  have hdrop : Represents J (c.dropWhere unlisted) (dropAll ((unlistedEmojis emojis data.emojis).map
      fun emoji => emojiKey data.guildId emoji.id) s) := by
    refine h.dropWhere (fun k hk => ?_) fun o ho => ⟨fun hk => ?_, fun ho' => ?_⟩
    · obtain ⟨emoji, -, rfl⟩ := List.mem_map.mp hk
      exact ⟨_, hkey emoji.id⟩
    · obtain ⟨emoji, hemoji, heq⟩ := List.mem_map.mp hk
      obtain rfl : CacheObject.emoji data.guildId emoji.id = o := CacheObject.key_inj.mp heq
      exact (hunlisted emoji.id).trans (List.mem_filter.mp hemoji).2
    · obtain ⟨hof, -⟩ := Bool.and_eq_true_iff.mp ho'
      cases o with
      | emoji g id =>
        obtain rfl : g = data.guildId := of_decide_eq_true hof
        have hhas : s.Has (emojiKey data.guildId id) := by
          have hvalue := h.strings (.emoji data.guildId id)
          rw [hkey] at hvalue
          rw [Store.Has, hvalue, ne_eq, Option.map_eq_none_iff]
          exact ho
        obtain ⟨emoji, hemoji, heq⟩ := (hcached.mem _ (emojiOf_emojiKey _ id)).mp hhas
        obtain rfl := emojiKey_inj.mp heq
        exact List.mem_map.mpr ⟨emoji, List.mem_filter.mpr ⟨hemoji, (hunlisted _).symm.trans ho'⟩, rfl⟩
      | _ => cases hof
  have hput := hdrop.setAll (data.emojis.map fun emoji =>
    (⟨.emoji data.guildId emoji.id, emoji⟩ : CacheEntry))
  rw [List.map_map] at hput
  have hsame : (c.dropWhere (CacheObject.isEmojiOf data.guildId)).setAll
        (data.emojis.map fun emoji => ⟨.emoji data.guildId emoji.id, emoji⟩) =
      (c.dropWhere unlisted).setAll
        (data.emojis.map fun emoji => ⟨.emoji data.guildId emoji.id, emoji⟩) := by
    refine Cache.ext (funext fun o => Cache.value_setAll_congr fun hno => ?_) ?_
      (Cache.listed_setAll_congr _ rfl)
    · have hno' : (data.emojis.any fun emoji => o = .emoji data.guildId emoji.id) = false := by
        rw [List.any_eq_false]
        intro emoji hemoji heq
        exact hno _ (List.mem_map_of_mem hemoji) (of_decide_eq_true heq).symm
      simp [unlisted, hno']
    · rw [Cache.deadline_setAll, Cache.deadline_setAll]
      rfl
  rw [hsame]
  exact hput

theorem Represents.value_ne_none (h : Represents J c s) (o : CacheObject) :
    c.value o ≠ none ↔ s.strings o.key ≠ none := by
  rw [h.strings, ne_eq, ne_eq, Option.map_eq_none_iff]

/-- One emoji is cached if the list of the cached emojis has one. -/
theorem Represents.oneEmoji_iff (h : Represents J c s) {g : Id .guild} {emojis : List Emoji}
    (hcached : Cached J s g emojis) : c.OneEmoji g ↔ emojis.length = 1 := by
  have hvalue (id : Id .emoji) :
      c.value (.emoji g id) ≠ none ↔ ∃ emoji ∈ emojis, emojiKey g emoji.id = emojiKey g id :=
    (h.value_ne_none (.emoji g id)).trans (hcached.mem _ (emojiOf_emojiKey g id))
  simp only [emojiKey_inj] at hvalue
  constructor
  · rintro ⟨id, hid, hunique⟩
    obtain ⟨emoji, hemoji, -⟩ := (hvalue id).mp hid
    have hkeys : emojis.map (fun emoji => emojiKey g emoji.id) =
        List.replicate emojis.length (emojiKey g id) := by
      refine List.eq_replicate_iff.mpr ⟨List.length_map _, fun key hkey => ?_⟩
      obtain ⟨other, hother, rfl⟩ := List.mem_map.mp hkey
      exact congrArg (emojiKey g) (hunique _ ((hvalue _).mpr ⟨other, hother, rfl⟩))
    have hnodup := hcached.nodup
    rw [hkeys, List.nodup_replicate] at hnodup
    exact le_antisymm hnodup (List.length_pos_of_mem hemoji)
  · intro hlength
    obtain ⟨emoji, rfl⟩ := List.length_eq_one_iff.mp hlength
    refine ⟨emoji.id, (hvalue _).mpr ⟨emoji, List.mem_cons_self, rfl⟩, fun id hid => ?_⟩
    obtain ⟨other, hother, rfl⟩ := (hvalue id).mp hid
    rw [List.mem_singleton.mp hother]

/-- A change for which a list of keys is read. -/
theorem Represents.changeTo {oneKey : OneKey} {one : Prop} {c' : Cache}
    (hfail : oneKey = .single → one → Represents J c s)
    (hdone : oneKey = .list ∨ ¬ one → Represents J c' s) :
    Represents J (c.changeTo oneKey one c') s := by
  unfold Cache.changeTo
  split_ifs with h
  · exact hfail h.1 h.2
  · refine hdone ?_
    cases oneKey with
    | list => exact .inl rfl
    | single => exact .inr fun hone => h ⟨rfl, hone⟩

section Update

variable (h : Represents J c s) (hJ : J.Lawful)
include h hJ

/-- The end of the arms that read, change and write back an object. -/
theorem Represents.refresh {e : Entity} {v : e.object.Value} (hv : c.value e.object = some v)
    (he : ∀ g ch, e ≠ .channel (some g) ch) (hkey : e.object.key = e.key) (cfg : Config) (env : Env)
    (f : e.object.Value → e.object.Value) (ttl : UInt64) :
    Represents J ((c.modify e.object f).stamp [e.object] (deadlineAfter env.now ttl))
      (Fallible.run exec (do
        let old ← oldValue J cfg (e.object.item v)
        TwilightDispatch.set J env.orders e.key (e.object.item (f v))
        TwilightDispatch.expire J env.now e.key ttl
        return old) s).2 := by
  obtain ⟨old, hold⟩ := oldValue_ok (s := s) cfg hJ (e.object.item v)
  rw [Fallible.run_bind_ok hold, Cache.modify_eq_set hv he]
  exact h.setExpire ⟨e, f v⟩ hkey env ttl old

/-- **One event.** -/
theorem Represents.update (hi : Indexed s) {ok : Entity → Prop} (hk : Known J ok s) (env : Env)
    (event : Event) : Represents J (event.effect cfg botId env.oneKey env.now c)
      (Fallible.run exec (update J cfg botId env event) s).2 := by
  have hset (e : Entity) (v : e.object.Value) : Represents J (c.set ⟨e, v⟩)
      (Fallible.run exec (do
        TwilightDispatch.set J env.orders e.key (e.object.item v)
        return (none : Option V)) s).2 := by
    rw [Fallible.run_bind_ok (run_set _ _)]
    exact h.set ⟨e, v⟩
  have hsetOld (e : Entity) (v : e.object.Value) : Represents J (c.set ⟨e, v⟩)
      (Fallible.run exec (do
        let old ← getOld J cfg e.key
        TwilightDispatch.set J env.orders e.key (e.object.item v)
        return old) s).2 := by
    obtain ⟨old, hget⟩ := getOld_ok cfg hk hJ e.key
    rw [Fallible.run_bind_ok hget, Fallible.run_bind_ok (run_set _ _)]
    exact h.set ⟨e, v⟩
  have hdelOld (e : Entity) : Represents J (c.del e)
      (Fallible.run exec (do
        let old ← getOld J cfg e.key
        TwilightDispatch.del env.orders e.key
        return old) s).2 := by
    obtain ⟨old, hget⟩ := getOld_ok cfg hk hJ e.key
    rw [Fallible.run_bind_ok hget, Fallible.run_bind_ok (run_del _)]
    exact h.del e
  cases event with
  | channelCreate data => exact hset (.channel data.guildId data.id) data
  | channelDelete data => exact hdelOld (.channel data.guildId data.id)
  | channelPinsUpdate data =>
    rcases data with ⟨_ | g, ch, pins⟩
    · have hchannel := h.strings (.channel ch)
      have hup : TwilightDispatch.update J cfg botId env (.channelPinsUpdate ⟨none, ch, pins⟩) =
        get J.channel (CacheObject.channel ch).key >>= _ := rfl
      rw [hup]
      cases hv : c.value (.channel ch) with
      | none => 
        rw [hv] at hchannel
        rw [Fallible.run_bind_ok (run_get_none hchannel)]
        change Represents J (c.modify _ _) s
        rwa [Cache.modify_of_none hv]
      | some channel =>
        rw [hv] at hchannel
        rw [Fallible.run_bind_ok (run_get_some hchannel (hJ.channel channel))]
        change Represents J (c.modify _ _) _
        rw [Cache.modify_eq_set (e := .channel none ch) hv (by rintro _ _ ⟨⟩)]
        exact hset (.channel none ch) { channel with lastPinTimestamp := pins }
    · have hget : Fallible.run exec (get J.channel (guildChannelKey g ch)) s = (.ok none, s) :=
        run_get_none (hi.strings_guildChannelKey g ch)
      have hrun : (Fallible.run exec (TwilightDispatch.update J cfg botId env
          (.channelPinsUpdate ⟨some g, ch, pins⟩)) s) = (.ok none, s) := Fallible.run_bind_ok hget
      rw [hrun]
      exact h
  | channelUpdate data => exact hsetOld (.channel data.guildId data.id) data
  | guildCreate data =>
    obtain ⟨old, hclear, -⟩ := hi.run_clearGuild hk hJ env.orders data.id
    have hput : Represents J ((c.clear data.id).setAll (data.entries cfg botId))
        (putAll J (guildItems cfg botId data) (cleared env.orders data.id s)) := by
      rw [guildItems_entries]
      exact (h.clear env.orders data.id).setAll _
    by_cases hon : cfg.stateMember = true
    · have heffect : Event.effect cfg botId env.oneKey env.now (.guildCreate data) c = _ := if_pos hon
      have hup : TwilightDispatch.update J cfg botId env (.guildCreate data) = (do
          let old ← clearGuild J.value env.orders data.id
          TwilightDispatch.setAll J env.orders (guildItems cfg botId data)
          TwilightDispatch.expireAll J env.now
            (data.members.map fun member => (memberKey data.id member.user.id, cfg.stateMemberTtl))
          return old) := by
        simp only [TwilightDispatch.update, hon, if_true]
      rw [heffect, hup, Fallible.run_bind_ok hclear, Fallible.run_bind_ok (run_setAll _),
        run_andThen_pure_snd]
      exact hput.expireMembers env.now data.id data.members cfg.stateMemberTtl
    · have heffect : Event.effect cfg botId env.oneKey env.now (.guildCreate data) c = _ := if_neg hon
      have hup : TwilightDispatch.update J cfg botId env (.guildCreate data) = (do
          let old ← clearGuild J.value env.orders data.id
          TwilightDispatch.setAll J env.orders (guildItems cfg botId data)
          return old) := by
        simp only [TwilightDispatch.update, hon]
        rfl
      rw [heffect, hup, Fallible.run_bind_ok hclear, Fallible.run_bind_ok (run_setAll _)]
      exact hput
  | guildDelete data =>
    obtain ⟨old, hclear, -⟩ := hi.run_clearGuild hk hJ env.orders data.id
    have hrun : Fallible.run exec (TwilightDispatch.update J cfg botId env (.guildDelete data)) s =
      (.ok old, cleared env.orders data.id s) := hclear
    rw [hrun]
    exact h.clear env.orders data.id
  | guildEmojisUpdate data =>
    by_cases hon : cfg.stateEmoji = true
    · obtain ⟨emojis, hcached, hlist, hsingle⟩ := hk.run_emojisUpdate hi hJ hon botId env data
      have heffect : Event.effect cfg botId env.oneKey env.now (.guildEmojisUpdate data) c = _ :=
        if_pos hon
      have hone := h.oneEmoji_iff hcached
      rw [heffect]
      refine .changeTo (fun hs hc => ?_) fun hc => ?_
      · rw [hsingle hs (hone.mp hc)]
        exact h
      · obtain ⟨old, hrun, -⟩ := hlist (hc.imp_right (mt hone.mpr))
        rw [hrun]
        exact h.emojis hcached
    · have hup : TwilightDispatch.update J cfg botId env (.guildEmojisUpdate data) = _ := if_neg hon
      have heffect : Event.effect cfg botId env.oneKey env.now (.guildEmojisUpdate data) c = _ :=
        if_neg hon
      rw [hup, heffect]
      exact h
  | guildUpdate data => exact hsetOld (.guild data.id) (.updated data)
  | memberAdd data =>
    exact h.ite fun _ => h.setExpire ⟨.member data.guildId data.user.id, data⟩ rfl env _ none
  | memberRemove data =>
    have hpresence {c' : Cache} {s' : Store T} (h' : Represents J c' s') (old : Option V) :
        Represents J (if cfg.statePresence then c'.del (.presence data.guildId data.user.id) else c')
          (Fallible.run exec (do
            if cfg.statePresence then
              TwilightDispatch.del env.orders (presenceKey data.guildId data.user.id)
            return old : Api T (Option V)) s').2 := by
      refine h'.ite fun _ => ?_
      rw [Fallible.run_bind_ok (run_del _)]
      exact h'.del (.presence data.guildId data.user.id)
    by_cases hon : cfg.stateMember = true
    · have heffect : Event.effect cfg botId env.oneKey env.now (.memberRemove data) c =
          if cfg.statePresence then
            (c.del (.member data.guildId data.user.id)).del (.presence data.guildId data.user.id)
          else c.del (.member data.guildId data.user.id) := by
        simp only [Event.effect, hon, if_true]
      have hup : TwilightDispatch.update J cfg botId env (.memberRemove data) = _ := if_pos hon
      obtain ⟨old, hget⟩ := getOld_ok (s := s) cfg hk hJ (memberKey data.guildId data.user.id)
      rw [heffect, hup, Fallible.run_bind_ok hget, Fallible.run_bind_ok (run_del _)]
      exact hpresence (h.del (.member data.guildId data.user.id)) old
    · have heffect : Event.effect cfg botId env.oneKey env.now (.memberRemove data) c =
          if cfg.statePresence then c.del (.presence data.guildId data.user.id) else c := by
        simp only [Event.effect, hon]
        rfl
      have hup : TwilightDispatch.update J cfg botId env (.memberRemove data) = _ := if_neg hon
      rw [heffect, hup]
      exact hpresence h none
  | memberUpdate data => 
    refine h.ite fun _ => ?_
    have hmember : s.strings (memberKey data.guildId data.user.id) =
        (c.value (.member data.guildId data.user.id)).map fun member => J.text (.member member) :=
      h.strings (.member data.guildId data.user.id)
    cases hv : c.value (.member data.guildId data.user.id) with
    | none =>
      rw [hv] at hmember
      rw [if_neg (by simp), Fallible.run_bind_ok (run_get_none hmember)]
      exact h
    | some member =>
      rw [hv] at hmember
      rw [if_pos (by simp), Fallible.run_bind_ok (run_get_some hmember (hJ.member member))]
      exact h.refresh hJ (e := .member data.guildId data.user.id) hv (by rintro _ _ ⟨⟩) rfl cfg env
        data.merge cfg.stateMemberTtl
  | memberChunk data =>
    refine h.ite fun _ => ?_
    have hput := h.setAll (data.members.map fun member =>
      (⟨.member data.guildId member.user.id, member⟩ : CacheEntry))
    rw [List.map_map] at hput
    rw [Fallible.run_bind_ok (run_setAll _), run_andThen_pure_snd]
    exact hput.expireMembers env.now data.guildId data.members cfg.stateMemberTtl
  | messageCreate data =>
    exact h.ite fun _ => h.setExpire ⟨.message data.channelId data.id, data⟩ rfl env _ none
  | messageDelete data => exact h.ite fun _ => hdelOld (.message data.channelId data.id)
  | messageDeleteBulk data =>
    by_cases hon : cfg.stateMessage = true
    · have heffect : Event.effect cfg botId env.oneKey env.now (.messageDeleteBulk data) c = _ :=
        if_pos hon
      have hmessage (id : Id .message) := h.value_ne_none (.message data.channelId id)
      rw [heffect]
      refine .changeTo (fun hs hc => ?_) fun hc => ?_
      · obtain ⟨id, hid, hv⟩ := hc
        obtain ⟨ch, ids⟩ := data
        obtain rfl : ids = [id] := hid
        rw [run_messageDeleteBulk_single botId hon hs ((hmessage id).mp hv)]
        exact h
      · have habsent : env.oneKey = .list ∨ ∀ id, data.ids = [id] →
            s.strings (messageKey data.channelId id) = none :=
          hc.imp_right fun hc id hid => not_not.mp fun hs => hc ⟨id, hid, (hmessage id).mpr hs⟩
        obtain ⟨messages, -, hrun⟩ := run_messageDeleteBulk botId hJ hon hk habsent
        obtain ⟨old, hold⟩ := oldValue_ok (s := dropAll (data.ids.map (messageKey data.channelId)) s)
          cfg hJ (.messages messages)
        have hdrop := h.delAll (data.ids.map fun id => .message data.channelId id)
        rw [List.map_map] at hdrop
        rw [hrun, hold]
        exact hdrop
    · have heffect : Event.effect cfg botId env.oneKey env.now (.messageDeleteBulk data) c = _ :=
        if_neg hon
      have hup : TwilightDispatch.update J cfg botId env (.messageDeleteBulk data) = _ := if_neg hon
      rw [heffect, hup]
      exact h
  | messageUpdate data =>
    refine h.ite fun _ => ?_
    have hmessage : s.strings (messageKey data.channelId data.id) =
        (c.value (.message data.channelId data.id)).map fun message => J.text (.message message) :=
      h.strings (.message data.channelId data.id)
    cases hv : c.value (.message data.channelId data.id) with
    | none =>
      rw [hv] at hmessage
      rw [if_neg (by simp), Fallible.run_bind_ok (run_get_none hmessage)]
      exact h
    | some message =>
      rw [hv] at hmessage
      rw [if_pos (by simp), Fallible.run_bind_ok (run_get_some hmessage (hJ.message message))]
      exact h.refresh hJ (e := .message data.channelId data.id) hv (by rintro _ _ ⟨⟩) rfl cfg env
        data.merge cfg.stateMessageTtl
  | presenceUpdate data =>
    exact h.ite fun _ => hsetOld (.presence data.guildId data.userId) data
  | ready data =>
    have hput := (h.set ⟨.botUser, data.user⟩).setAll (data.guilds.map fun guild =>
      (⟨.guild guild.id, .unavailable guild⟩ : CacheEntry))
    rw [List.map_map] at hput
    have hrun : Fallible.run exec (TwilightDispatch.update J cfg botId env (.ready data)) s =
        (.ok none, putAll J (data.guilds.map fun guild =>
          (guildKey guild.id, .unavailableGuild guild))
            (putAll J [(BOT_USER_KEY, .currentUser data.user)] s)) :=
      (Fallible.run_bind_ok (run_set _ _)).trans (Fallible.run_bind_ok (run_setAll _))
    rw [hrun]
    exact hput
  | roleCreate data => exact hset (.role data.guildId data.role.id) data.role
  | roleDelete data => exact hdelOld (.role data.guildId data.roleId)
  | roleUpdate data => exact hsetOld (.role data.guildId data.role.id) data.role
  | unavailableGuild data =>
    obtain ⟨old, hclear, -⟩ := hi.run_clearGuild hk hJ env.orders data.id
    have hrun : Fallible.run exec (TwilightDispatch.update J cfg botId env (.unavailableGuild data)) s =
        (.ok old, putAll J [(guildKey data.id, .unavailableGuild data)]
          (cleared env.orders data.id s)) :=
      (Fallible.run_bind_ok hclear).trans (Fallible.run_bind_ok (run_set _ _))
    rw [hrun]
    exact (h.clear env.orders data.id).set ⟨.guild data.id, .unavailable data⟩
  | userUpdate data => exact hsetOld .botUser data
  | voiceStateUpdate data => 
    refine h.ite fun _ => ?_
    rcases data with ⟨_ | g, _ | ch, u, extra⟩
    · exact h
    · exact h
    · exact hdelOld (.voice g u)
    · exact hsetOld (.voice g u) _
  | _ => exact h

end Update

/-! ## Runs -/

/-- **The store holds the cache.** Every run leaves the store that holds, object by object, what the
events and sweeps of the run make of the cache: no other value, no other index entry, no other
deadline. -/
theorem represents_stateAfter {J : Json T V} (hJ : J.Lawful) (cfg : Config) (botId : Id .user)
    (steps : List Step) :
    Represents J (cacheAfter cfg botId steps) (stateAfter J cfg botId steps) := by
  induction steps using List.reverseRecOn with
  | nil => exact .empty
  | append_singleton steps step ih =>
    have hok : ∀ step ∈ steps, step.Ok fun _ => True := fun step _ => step.ok_true
    have hindexed : Indexed (stateAfter J cfg botId steps) :=
      (Indexed.stable (J := J) _).stateAfter .empty hok
    have hknown : Known J (fun _ => True) (stateAfter J cfg botId steps) :=
      (Known.stable _).stateAfter .empty hok
    rw [stateAfter_append, cacheAfter, List.foldl_append]
    rcases step with ⟨env, event | _⟩
    · rw [Step.next_event]
      exact ih.update hJ hindexed hknown env event
    · rw [Step.next_sweep]
      exact ih.sweep hJ env

/-- A role of guild 1 is created, a channel of the guild is written, and a sweep comes. -/
def roleAndChannelRun (orders : Orders) : List Step :=
  [⟨⟨.of 0, orders, .list⟩, .event (.roleCreate ⟨.of 1, ⟨.of 3, ""⟩⟩)⟩,
    ⟨⟨.of 0, orders, .list⟩, .event (.channelUpdate ⟨.of 2, some (.of 1), none, ""⟩)⟩,
    ⟨⟨.of 1, orders, .list⟩, .sweep⟩]

/-- After the run the store holds the role. -/
theorem strings_roleAndChannelRun :
    (stateAfter Json.plain .full (.of 9) (roleAndChannelRun .sorted)).strings
      (CacheObject.role (.of 1) (.of 3)).key = some (Json.plain.text (.role ⟨.of 3, ""⟩)) := by
  have hvalue : (cacheAfter .full (.of 9) (roleAndChannelRun .sorted)).value
      (.role (.of 1) (.of 3)) = some ⟨.of 3, ""⟩ := by decide
  rw [(represents_stateAfter Json.plain_lawful .full (.of 9) (roleAndChannelRun .sorted)).strings,
    hvalue]
  rfl

/-- What one step of a run has to say, whatever the orders of its task. -/
def Step.timed (step : Step) : FormattedDateTime × OneKey × Job :=
  (step.env.now, step.env.oneKey, step.job)

theorem cacheAfter_of_timed {steps steps' : List Step}
    (h : steps.map Step.timed = steps'.map Step.timed) :
    cacheAfter cfg botId steps = cacheAfter cfg botId steps' := by
  have hcache (steps : List Step) : cacheAfter cfg botId steps = (steps.map Step.timed).foldl
      (fun c step => Step.effect cfg botId c ⟨⟨step.1, .sorted, step.2.1⟩, step.2.2⟩)
      Cache.empty := by
    rw [List.foldl_map]
    rfl
  rw [hcache, hcache, h]

/-- **The orders do not show.** Two runs of the same events and sweeps at the same times leave the same
store, in whatever orders their hash maps and sets are iterated. -/
theorem stateAfter_orders {J : Json T V} (hJ : J.Lawful) (cfg : Config) (botId : Id .user)
    {steps steps' : List Step} (h : steps.map Step.timed = steps'.map Step.timed) :
    stateAfter J cfg botId steps = stateAfter J cfg botId steps' := by
  have hrep := represents_stateAfter hJ cfg botId steps
  rw [cacheAfter_of_timed h] at hrep
  exact hrep.unique (represents_stateAfter hJ cfg botId steps')

/-- Sets come in decreasing order, and the hash map is iterated backwards. -/
def Orders.backwards : Orders where
  members l := l.reverse
  members_perm l := l.reverse_perm
  listing s := (Orders.sorted.listing s).reverse
  listing_nodup s := List.nodup_reverse.mpr (Orders.sorted.listing_nodup s)
  mem_listing s k := List.mem_reverse.trans (Orders.sorted.mem_listing s k)

theorem stateAfter_backwards :
    stateAfter Json.plain .full (.of 9) (roleAndChannelRun .backwards) =
      stateAfter Json.plain .full (.of 9) (roleAndChannelRun .sorted) :=
  stateAfter_orders Json.plain_lawful .full (.of 9) rfl

end TwilightDispatch
