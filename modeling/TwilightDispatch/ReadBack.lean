import TwilightDispatch.Frame
import TwilightDispatch.GatewayKeys
import TwilightDispatch.OldValue

/-!
# Reading back

`set_all` and `del_all` store a channel of a guild without its guild, while `get` reads under the key it
is given. Under every other key the store reads back what has been written, and what is written under
the keys of other objects does not matter (`readsBack_iff`).
-/

namespace TwilightDispatch

open Atomic Redis

variable {T V : Type} {J : Json T V} {orders : Orders} {s s' : Store T}

/-! ## Objects -/

/-- What a key is built for: an entity, or something the process keeps about itself. -/
inductive Object where
  | entity (e : Entity)
  | process (key : String) (h : key ∈ gatewayKeys)

/-- The key that is built. -/
def Object.key : Object → String
  | entity e => e.key
  | process key _ => key

/-- Keys are built for the same object. A channel is one object, with or without its guild. -/
inductive Object.Same : Object → Object → Prop
  | refl (o : Object) : Same o o
  | channel (g g' : Option (Id .guild)) (c : Id .channel) :
      Same (entity (.channel g c)) (entity (.channel g' c))

/-- An object is stored under one key. -/
theorem Object.same_iff {o o' : Object} : o.Same o' ↔ newKey o.key = newKey o'.key := by
  constructor
  · intro h
    cases h with
    | refl => rfl
    | channel g g' c => exact (newKey_key (.channel g c)).trans (newKey_key (.channel g' c)).symm
  · intro h
    rcases o with e | ⟨key, hkey⟩
    · have hstored : e.stored = newKey o'.key := (newKey_key e).symm.trans h
      rcases o' with e' | ⟨key', hkey'⟩
      · rw [show newKey (Object.key (.entity e')) = e'.stored from newKey_key e'] at hstored
        by_cases hkind : e.kind = CHANNEL_KEY
        · obtain ⟨g, c, rfl⟩ := Entity.eq_channel_of_kind hkind
          obtain ⟨g', c', rfl⟩ := Entity.eq_channel_of_kind (e := e') (by
            rw [← kindOf_stored, ← hstored, kindOf_stored, hkind])
          obtain rfl : c = c' := by
            have hsplit := congrArg split hstored
            simpa [Entity.stored] using hsplit
          exact .channel g g' c
        · obtain rfl := Entity.stored_inj hstored hkind
          exact .refl _
      · rw [show newKey (Object.key (.process key' hkey')) = key' from
          newKey_eq_self (colon_notMem_of_gateway hkey')] at hstored
        exact absurd (hstored ▸ hkey') e.stored_notMem_gateway
    · rw [show newKey (Object.key (.process key hkey)) = key from
        newKey_eq_self (colon_notMem_of_gateway hkey)] at h
      rcases o' with e' | ⟨key', hkey'⟩
      · rw [show newKey (Object.key (.entity e')) = e'.stored from newKey_key e'] at h
        exact absurd (h ▸ hkey) e'.stored_notMem_gateway
      · rw [show newKey (Object.key (.process key' hkey')) = key' from
          newKey_eq_self (colon_notMem_of_gateway hkey')] at h
        subst h
        exact .refl _

/-- Nothing is stored under the key of an object but the object itself. -/
theorem Object.same_of_newKey {o o' : Object} (h : newKey o.key = o'.key) : o.Same o' := by
  rw [Object.same_iff, ← h, newKey_newKey]

/-- Only the key of a channel of a guild is not the key it is stored under. -/
theorem Object.newKey_key_iff {o : Object} :
    newKey o.key = o.key ↔ ∀ g c, o ≠ .entity (.channel (some g) c) := by
  constructor
  · rintro h g c rfl
    have hsplit := congrArg split ((newKey_key (.channel (some g) c)).symm.trans h)
    simp [Entity.stored, Object.key, Entity.key, channelKey] at hsplit
  · intro h
    rcases o with e | ⟨key, hkey⟩
    · refine (newKey_key e).trans ?_
      cases e with
      | channel g c =>
        rcases g with _ | g
        · rfl
        · exact absurd rfl (h g c)
      | _ => rfl
    · exact newKey_eq_self (colon_notMem_of_gateway hkey)

/-! ## Batches -/

/-- The values of a batch under their keys. -/
def keyed (kvs : List (Object × Item)) : List (String × Item) := kvs.map fun kv => (kv.1.key, kv.2)

/-- The last value that a batch has for an object. -/
def LastValue (kvs : List (Object × Item)) (o : Object) (value : Item) : Prop :=
  ∃ before o' after, kvs = before ++ (o', value) :: after ∧ o'.Same o ∧
    ∀ kv ∈ after, ¬ kv.1.Same o

variable {kvs : List (Object × Item)} {o : Object} {value : Item}

theorem lastOf_keyed_eq_none (h : ∀ kv ∈ kvs, ¬ kv.1.Same o) :
    lastOf (storedPairs J (keyed kvs)) (newKey o.key) = none := by
  refine lastOf_storedPairs_eq_none fun kv hkv => ?_
  obtain ⟨kv', hkv', rfl⟩ := List.mem_map.mp hkv
  exact fun hkey => h kv' hkv' (Object.same_iff.mpr hkey)

theorem LastValue.lastOf_keyed (h : LastValue kvs o value) :
    lastOf (storedPairs J (keyed kvs)) (newKey o.key) = some (J.text value) := by
  obtain ⟨before, o', after, rfl, hsame, hafter⟩ := h
  have hsplit : keyed (before ++ (o', value) :: after) =
      keyed before ++ (o'.key, value) :: keyed after := by simp [keyed]
  have hnone : lastOf (storedPairs J (keyed after)) (newKey o.key) = none := lastOf_keyed_eq_none hafter
  rw [hsplit, storedPairs_append, lastOf_append]
  change ((lastOf (storedPairs J (keyed after)) (newKey o.key)).or
    (if newKey o'.key = newKey o.key then some (J.text value) else none)).or _ = _
  rw [hnone, if_pos (Object.same_iff.mp hsame)]
  rfl

/-! ## The laws -/

/-- In the state `s`, the key of `o` reads back what is written: the value that is set for the object,
alone or as the last one in a batch, and nothing once the object is deleted. What is set and deleted for
other objects changes nothing. -/
structure ReadsBack (J : Json T V) (orders : Orders) (s : Store T) (o : Object) : Prop where
  read_set : ∀ {α : Type} (decode : T → Except SimdJsonError α) (value : Item) (a : α),
    decode (J.text value) = .ok a →
    (Fallible.run exec (do set J orders o.key value; get decode o.key) s).1 = .ok (some a)
  read_del : ∀ {α : Type} (decode : T → Except SimdJsonError α),
    (Fallible.run exec (do del orders o.key; get decode o.key) s).1 = .ok none
  read_setAll : ∀ {α : Type} (decode : T → Except SimdJsonError α) (kvs : List (Object × Item))
    (value : Item) (a : α), LastValue kvs o value → decode (J.text value) = .ok a →
    (Fallible.run exec (do setAll J orders (keyed kvs); get decode o.key) s).1 = .ok (some a)
  read_delAll : ∀ {α : Type} (decode : T → Except SimdJsonError α) (os : List Object),
    (∃ o' ∈ os, o'.Same o) →
    (Fallible.run exec (do delAll orders (os.map Object.key); get decode o.key) s).1 = .ok none
  read_set_other : ∀ {α : Type} (decode : T → Except SimdJsonError α) (o' : Object) (value : Item),
    ¬ o'.Same o → (Fallible.run exec (do set J orders o'.key value; get decode o.key) s).1 =
      (Fallible.run exec (get decode o.key) s).1
  read_del_other : ∀ {α : Type} (decode : T → Except SimdJsonError α) (o' : Object), ¬ o'.Same o →
    (Fallible.run exec (do del orders o'.key; get decode o.key) s).1 =
      (Fallible.run exec (get decode o.key) s).1
  read_setAll_other : ∀ {α : Type} (decode : T → Except SimdJsonError α) (kvs : List (Object × Item)),
    (∀ kv ∈ kvs, ¬ kv.1.Same o) →
    (Fallible.run exec (do setAll J orders (keyed kvs); get decode o.key) s).1 =
      (Fallible.run exec (get decode o.key) s).1
  read_delAll_other : ∀ {α : Type} (decode : T → Except SimdJsonError α) (os : List Object),
    (∀ o' ∈ os, ¬ o'.Same o) →
    (Fallible.run exec (do delAll orders (os.map Object.key); get decode o.key) s).1 =
      (Fallible.run exec (get decode o.key) s).1

section Laws

variable {α : Type} {decode : T → Except SimdJsonError α}

/-- What is read under a key depends on the value stored under it only. -/
theorem run_get_congr {k : String} (h : s.strings k = s'.strings k) :
    (Fallible.run exec (get decode k) s).1 = (Fallible.run exec (get decode k) s').1 := by
  cases ht : s'.strings k with
  | none => rw [run_get_none ht, run_get_none (h.trans ht)]
  | some t =>
    cases hd : decode t with
    | error err => rw [run_get_error ht hd, run_get_error (h.trans ht) hd]
    | ok a => rw [run_get_some ht hd, run_get_some (h.trans ht) hd]

theorem LastValue.single (o : Object) (value : Item) : LastValue [(o, value)] o value :=
  ⟨[], o, [], rfl, .refl o, fun _ h => nomatch h⟩

/-- The last value of a batch is read back where the key is the one it is stored under. -/
theorem read_setAll (hkey : newKey o.key = o.key) {a : α} (hlast : LastValue kvs o value)
    (ha : decode (J.text value) = .ok a) :
    (Fallible.run exec (do setAll J orders (keyed kvs); get decode o.key) s).1 = .ok (some a) := by
  have hput : (putAll J (keyed kvs) s).strings o.key = some (J.text value) := by
    have hlast := hlast.lastOf_keyed (J := J)
    rw [hkey] at hlast
    rw [strings_putAll, hlast, Option.some_or]
  rw [Fallible.run_bind_ok (run_setAll _), run_get_some hput ha]

theorem read_delAll (hkey : newKey o.key = o.key) {os : List Object} (h : ∃ o' ∈ os, o'.Same o) :
    (Fallible.run exec (do delAll orders (os.map Object.key); get decode o.key) s).1 = .ok none := by
  obtain ⟨o', ho', hsame⟩ := h
  have hmem : o.key ∈ (os.map Object.key).map newKey := by
    rw [List.map_map]
    exact List.mem_map.mpr ⟨o', ho', (Object.same_iff.mp hsame).trans hkey⟩
  have hdrop : (dropAll (os.map Object.key) s).strings o.key = none := if_pos hmem
  rw [Fallible.run_bind_ok (run_delAll _), run_get_none hdrop]

/-- Writing other objects does not change what is read, whatever the key. -/
theorem read_setAll_other (h : ∀ kv ∈ kvs, ¬ kv.1.Same o) :
    (Fallible.run exec (do setAll J orders (keyed kvs); get decode o.key) s).1 =
      (Fallible.run exec (get decode o.key) s).1 := by
  have hnone : lastOf (storedPairs J (keyed kvs)) o.key = none := by
    refine lastOf_storedPairs_eq_none fun kv hkv hkey => ?_
    obtain ⟨kv', hkv', rfl⟩ := List.mem_map.mp hkv
    exact h kv' hkv' (Object.same_of_newKey hkey)
  have hput : (putAll J (keyed kvs) s).strings o.key = s.strings o.key := by
    rw [strings_putAll, hnone, Option.none_or]
  rw [Fallible.run_bind_ok (run_setAll _)]
  exact run_get_congr hput

theorem read_delAll_other {os : List Object} (h : ∀ o' ∈ os, ¬ o'.Same o) :
    (Fallible.run exec (do delAll orders (os.map Object.key); get decode o.key) s).1 =
      (Fallible.run exec (get decode o.key) s).1 := by
  have hdrop : (dropAll (os.map Object.key) s).strings o.key = s.strings o.key := by
    refine if_neg fun hmem => ?_
    obtain ⟨key, hkey, heq⟩ := List.mem_map.mp hmem
    obtain ⟨o', ho', rfl⟩ := List.mem_map.mp hkey
    exact h o' ho' (Object.same_of_newKey heq)
  rw [Fallible.run_bind_ok (run_delAll _)]
  exact run_get_congr hdrop

/-- Where the key is not the one the object is stored under, setting it does not change what is read. -/
theorem read_set_guildChannel (orders : Orders) (g : Id .guild) (c : Id .channel) (value : Item) :
    (Fallible.run exec (do
      set J orders (channelKey (some g) c) value
      get decode (channelKey (some g) c)) s).1 =
        (Fallible.run exec (get decode (channelKey (some g) c)) s).1 := by
  have hnone : lastOf (storedPairs J [(channelKey (some g) c, value)]) (channelKey (some g) c) =
      none := by
    refine lastOf_storedPairs_eq_none fun kv hkv hkey => ?_
    rw [List.mem_singleton.mp hkv] at hkey
    exact Object.newKey_key_iff (o := .entity (.channel (some g) c)).mp hkey g c rfl
  have hput : (putAll J [(channelKey (some g) c, value)] s).strings (channelKey (some g) c) =
      s.strings (channelKey (some g) c) := by
    rw [strings_putAll, hnone, Option.none_or]
  rw [Fallible.run_bind_ok (run_set _ _)]
  exact run_get_congr hput

end Laws

/-- **The store reads back what is written**, in every state, exactly under the keys that are not built
for a channel of a guild. -/
theorem readsBack_iff {J : Json T V} (hJ : J.Lawful) (orders : Orders) (s : Store T) (o : Object) :
    ReadsBack J orders s o ↔ ∀ g c, o ≠ .entity (.channel (some g) c) := by
  constructor
  · rintro h g c rfl
    -- two different channels would both be read
    have hread : ∀ channel : Channel,
        (Fallible.run exec (get J.channel (channelKey (some g) c)) s).1 = .ok (some channel) := by
      intro channel
      rw [← read_set_guildChannel (J := J) orders g c (.channel channel)]
      exact h.read_set J.channel (.channel channel) channel (hJ.channel channel)
    have heq := (hread ⟨c, some g, none, ""⟩).symm.trans (hread ⟨c, none, none, ""⟩)
    cases heq
  · intro h
    have hkey : newKey o.key = o.key := Object.newKey_key_iff.mpr h
    exact {
      read_set := fun _ value _ ha => read_setAll hkey (.single o value) ha
      read_del := fun _ =>
        have hsame : ∃ o' ∈ [o], o'.Same o := ⟨o, List.mem_singleton_self o, .refl o⟩
        read_delAll hkey hsame
      read_setAll := fun _ _ _ _ hlast ha => read_setAll hkey hlast ha
      read_delAll := fun _ _ hex => read_delAll hkey hex
      read_set_other := fun _ o' value hne =>
        have hother : ∀ kv ∈ [(o', value)], ¬ kv.1.Same o :=
          fun kv hkv => List.mem_singleton.mp hkv ▸ hne
        read_setAll_other hother
      read_del_other := fun _ o' hne =>
        have hother : ∀ o'' ∈ [o'], ¬ o''.Same o :=
          fun o'' ho'' => List.mem_singleton.mp ho'' ▸ hne
        read_delAll_other hother
      read_setAll_other := fun _ _ hne => read_setAll_other hne
      read_delAll_other := fun _ _ hne => read_delAll_other hne }

/-- Two roles and a channel. -/
def rolesAndChannel : Store Item :=
  putAll Json.plain [(roleKey (.of 1) (.of 2), .role ⟨.of 2, ""⟩), (roleKey (.of 1) (.of 3), .role ⟨.of 3, ""⟩),
    (channelKey none (.of 4), .channel ⟨.of 4, none, none, ""⟩)] Store.empty

/-- Where the role and other objects are stored, its key reads back. -/
theorem readsBack_role : rolesAndChannel.Has (roleKey (.of 1) (.of 2)) ∧ rolesAndChannel.Has (roleKey (.of 1) (.of 3)) ∧
    rolesAndChannel.Has (channelKey none (.of 4)) ∧
    ReadsBack Json.plain .sorted rolesAndChannel (.entity (.role (.of 1) (.of 2))) :=
  ⟨Option.isSome_iff_ne_none.mp (by decide +kernel), Option.isSome_iff_ne_none.mp (by decide +kernel),
    Option.isSome_iff_ne_none.mp (by decide +kernel),
    (readsBack_iff Json.plain_lawful .sorted rolesAndChannel _).mpr fun _ _ h => by cases h⟩

/-- The key of a channel of a guild does not. -/
theorem readsBack_missed :
    ¬ ReadsBack Json.plain .sorted Store.empty (.entity (.channel (some (.of 1)) (.of 2))) := by
  intro h
  have hread := h.read_set Json.plain.channel (.channel ⟨.of 2, some (.of 1), none, ""⟩) _ rfl
  have hnone : (Fallible.run exec (do
      set Json.plain .sorted (channelKey (some (.of 1)) (.of 2))
        (.channel ⟨.of 2, some (.of 1), none, ""⟩)
      get Json.plain.channel (channelKey (some (.of 1)) (.of 2))) Store.empty).1.toOption.bind id =
        none := by
    decide +kernel
  rw [show channelKey (some (.of 1)) (.of 2) =
    Object.key (.entity (.channel (some (.of 1)) (.of 2))) from rfl, hread] at hnone
  cases hnone

end TwilightDispatch
