import TwilightDispatch.Atomic.Succeeds
import TwilightDispatch.GatewayKeys
import TwilightDispatch.OldValue
import TwilightDispatch.SessionMap

/-!
# What is stored decodes

A string key is written with texts of one type only: the key of an object with values of the object, a
key of a process with what processes keep there (`TextOf`). This holds between any two commands, so every
operation on Redis reads what it expects, whatever else is under way.
-/

namespace TwilightDispatch

open Atomic Redis

variable {T V α β : Type} {J : Json T V} {cfg : Config} {botId : Id .user} {env : Env} {s : Store T}
  {k : String} {t : T} {orders : Orders}

/-! ## Stored texts -/

/-- What is written under a key. -/
inductive TextOf (J : Json T V) : String → T → Prop
  | entity {e : Entity} {i : Item} (h : e.Holds i) : TextOf J e.stored (J.text i)
  | started (d : FormattedDateTime) : TextOf J STARTED_KEY (J.text (.timestamp d))
  | shards (n : UInt64) : TextOf J SHARDS_KEY (J.text (.shardsTotal n))
  | statuses (l : List StatusInfo) : TextOf J STATUSES_KEY (J.text (.statuses l))
  | sessions {sessions : Sessions} (h : Named sessions) :
      TextOf J SESSIONS_KEY (J.text (.sessions sessions))

/-- What is stored decodes as what is expected under its key. -/
def Texts (J : Json T V) (s : Store T) : Prop := ∀ k t, s.strings k = some t → TextOf J k t

theorem Texts.empty : Texts J (Store.empty : Store T) := fun _ _ h => nomatch h

theorem Texts.mset (h : Texts J s) {kvs : List (String × T)} (hkvs : ∀ kv ∈ kvs, TextOf J kv.1 kv.2) :
    Texts J (apply (.mset kvs) s) := by
  intro k t ht
  rw [strings_mset, Option.or_eq_some_iff] at ht
  rcases ht with ht | ⟨-, ht⟩
  · exact hkvs _ (mem_of_lastOf ht)
  · exact h k t ht

theorem Texts.del (h : Texts J s) (keys : List String) : Texts J (apply (.del keys) s) := by
  intro k t ht
  rw [strings_del] at ht
  split_ifs at ht
  exact h k t ht

/-- The text under the key of an entity is that of a value of the entity. -/
theorem TextOf.of_key {e : Entity} (h : TextOf J e.key t) : ∃ i, e.Holds i ∧ t = J.text i := by
  generalize hk : e.key = k at h
  cases h with
  | @entity e' i hi =>
    refine ⟨i, ?_, rfl⟩
    have hstored : e.stored = e'.stored := by rw [← newKey_key, hk, newKey_stored]
    by_cases hkind : e.kind = CHANNEL_KEY
    · have hkind' : e'.kind = CHANNEL_KEY := by rw [← kindOf_stored, ← hstored, kindOf_stored, hkind]
      obtain ⟨g, c, rfl⟩ := Entity.eq_channel_of_kind hkind
      obtain ⟨g', c', rfl⟩ := Entity.eq_channel_of_kind hkind'
      cases i <;> exact hi
    · rwa [Entity.stored_inj hstored hkind]
  | _ => exact absurd (by rw [hk]; simp [gatewayKeys]) e.key_notMem_gateway

/-- What is read of a member or message decodes. -/
theorem TextOf.decodes {decode : T → Except SimdJsonError α} {e : Entity} {wrap : α → Item}
    (hdecode : ∀ a, decode (J.text (wrap a)) = .ok a) (hwrap : ∀ i, e.Holds i → ∃ a, i = wrap a)
    {t : T} (h : TextOf J e.key t) : ∃ a, decode t = .ok a ∧ e.Holds (wrap a) := by
  obtain ⟨i, hi, rfl⟩ := h.of_key
  obtain ⟨a, rfl⟩ := hwrap i hi
  exact ⟨a, hdecode a, hi⟩

/-- What is stored under a key that begins as that of an emoji is an emoji. -/
theorem TextOf.emoji (hJ : J.Lawful) (h : TextOf J k t) (hk : (split k).headD "" = EMOJI_KEY) :
    ∃ emoji, J.emoji t = .ok emoji := by
  have hgateway : ∀ key ∈ gatewayKeys, (split key).headD "" ≠ EMOJI_KEY := by
    intro key hkey
    rw [split_eq_singleton (colon_notMem_of_gateway hkey)]
    revert key
    decide
  cases h with
  | @entity e i hi =>
    have hkind : e.kind = EMOJI_KEY := (kindOf_stored e).symm.trans hk
    cases e with
    | emoji g id =>
      cases i with
      | emoji data => exact ⟨data, hJ.emoji data⟩
      | _ => exact hi.elim
    | _ => simp [Entity.kind, BOT_USER_KEY, GUILD_KEY, CHANNEL_KEY, MESSAGE_KEY, ROLE_KEY, EMOJI_KEY,
        MEMBER_KEY, PRESENCE_KEY, VOICE_KEY] at hkind
  | _ => exact absurd hk (hgateway _ (by simp [gatewayKeys]))

/-- What is stored under a key of a process is what a process keeps there. -/
theorem TextOf.of_gateway (h : TextOf J k t) (hk : k ∈ gatewayKeys) :
    (k = STARTED_KEY ∧ ∃ d, t = J.text (.timestamp d)) ∨
    (k = SHARDS_KEY ∧ ∃ n, t = J.text (.shardsTotal n)) ∨
    (k = STATUSES_KEY ∧ ∃ l, t = J.text (.statuses l)) ∨
    (k = SESSIONS_KEY ∧ ∃ m, Named m ∧ t = J.text (.sessions m)) := by
  cases h with
  | @entity e => exact absurd hk e.stored_notMem_gateway
  | started d => exact .inl ⟨rfl, d, rfl⟩
  | shards n => exact .inr (.inl ⟨rfl, n, rfl⟩)
  | statuses l => exact .inr (.inr (.inl ⟨rfl, l, rfl⟩))
  | sessions h => exact .inr (.inr (.inr ⟨rfl, _, h, rfl⟩))

theorem TextOf.of_shards (h : TextOf J SHARDS_KEY t) : ∃ n, t = J.text (.shardsTotal n) := by
  rcases h.of_gateway (by decide) with ⟨hk, -⟩ | ⟨-, h⟩ | ⟨hk, -⟩ | ⟨hk, -⟩
  · exact absurd hk (by decide)
  · exact h
  · exact absurd hk (by decide)
  · exact absurd hk (by decide)

theorem TextOf.of_sessions (h : TextOf J SESSIONS_KEY t) :
    ∃ m, Named m ∧ t = J.text (.sessions m) := by
  rcases h.of_gateway (by decide) with ⟨hk, -⟩ | ⟨hk, -⟩ | ⟨hk, -⟩ | ⟨-, h⟩
  · exact absurd hk (by decide)
  · exact absurd hk (by decide)
  · exact absurd hk (by decide)
  · exact h

/-! ## Commands -/

theorem succeeds_redis {c : Cmd T} {Q : c.Answer → Prop} (hkeeps : ∀ s, Texts J s → Texts J (apply c s))
    (hQ : ∀ s, Texts J s → Q (reply c s)) : Succeeds exec (Texts J) (redis c) Q :=
  Safe.cmd fun s hs => ⟨hkeeps s hs, .ret ⟨_, rfl, hQ s hs⟩⟩

theorem succeeds_orSimdJson {r : Except SimdJsonError α} {a : α} (h : r = .ok a) :
    Succeeds exec (Texts J) (orSimdJson r : Api T α) fun b => b = a := by
  subst h
  exact .pure rfl

theorem succeeds_attempt {x : Api T α} {Q : α → Prop} (hx : Succeeds exec (Texts J) x Q) :
    Succeeds exec (Texts J) (attempt x) fun r => ∃ a, r = .ok a ∧ Q a := by
  refine hx.lift.bind ?_
  rintro _ ⟨a, rfl, ha⟩
  exact .pure ⟨a, rfl, ha⟩

/-! ### Reading -/

theorem succeeds_get {decode : T → Except SimdJsonError α} {R : α → Prop}
    (hdecode : ∀ t, TextOf J k t → ∃ a, decode t = .ok a ∧ R a) :
    Succeeds exec (Texts J) (get decode k) fun r => ∀ a, r = some a → R a := by
  refine (succeeds_redis (c := .get k) (Q := fun r => ∀ t, r = some t → TextOf J k t)
    (fun _ h => h) fun s hs => hs k).bind fun r hr => ?_
  cases r with
  | none => exact .pure nofun
  | some t =>
    obtain ⟨a, hok, ha⟩ := hdecode t (hr t rfl)
    refine (succeeds_orSimdJson hok).bind ?_
    rintro _ rfl
    exact .pure fun b hb => Option.some.inj hb ▸ ha

/-- How a read of a list of keys fails, where the Redis client reads a list of one key as a single one. -/
def ReadFailure (oneKey : OneKey) (failure : Failure) : Prop :=
  oneKey = .single ∧ ∃ err, failure = .error (.redis err)

/-- A list of keys is read, unless it has one key that is read as a single one. -/
theorem ends_getKeys {oneKey : OneKey} {keys : List String} {Q : Option T → Prop}
    (hQ : ∀ s, Texts J s → ∀ k ∈ keys, Q (s.strings k)) :
    Ends exec (Texts J) (ReadFailure oneKey) (getKeys oneKey keys) fun r => ∀ option ∈ r, Q option := by
  unfold getKeys
  split
  · rename_i key
    refine (Ends.of_succeeds (succeeds_redis (c := .get key) (Q := fun _ => True) (fun _ h => h)
      fun _ _ => trivial)).bind fun value _ => ?_
    cases value with
    | none => exact .of_succeeds (.pure fun _ h => nomatch h)
    | some t => exact .throw ⟨rfl, _, rfl⟩
  · refine .of_succeeds (succeeds_redis (c := .mget _) (fun _ h => h) fun s hs option hoption => ?_)
    obtain ⟨k, hk, rfl⟩ := List.mem_map.mp hoption
    exact hQ s hs k hk

theorem ends_getAll {oneKey : OneKey} {decode : T → Except SimdJsonError α} {keys : List String}
    (hdecode : ∀ k ∈ keys, ∀ t, TextOf J k t → ∃ a, decode t = .ok a) :
    Ends exec (Texts J) (ReadFailure oneKey) (getAll oneKey decode keys) fun _ => True := by
  refine .ite (fun _ => .of_succeeds (.pure trivial)) fun _ => ?_
  refine (ends_getKeys (Q := fun option => ∀ t, option = some t → ∃ a, decode t = .ok a)
    fun s hs k hk t ht => hdecode k hk t (hs k t ht)).bind fun res hres => .of_succeeds ?_
  · refine (Succeeds.mapM (R := fun _ => True) fun option hoption => ?_).mono fun _ _ => trivial
    cases option with
    | none => exact .pure trivial
    | some t =>
      obtain ⟨a, hok⟩ := hres _ hoption t rfl
      exact (succeeds_orSimdJson hok).bind fun _ _ => .pure trivial

theorem succeeds_getMembers (key : String) :
    Succeeds exec (Texts J) (getMembers orders key : Api T _) fun _ => True :=
  (succeeds_redis (c := .smembers key) (fun _ h => h) fun _ _ => trivial).andThen fun _ =>
    .pure trivial

/-- An old value is one of the object that is named. -/
def Old (J : Json T V) (e : Entity) (old : Option V) : Prop :=
  ∀ v, old = some v → ∃ i, e.Holds i ∧ J.value (J.text i) = .ok v

theorem succeeds_getValue (hJ : J.Lawful) (e : Entity) :
    Succeeds exec (Texts J) (get J.value e.key) (Old J e) := by
  refine succeeds_get fun t ht => ?_
  obtain ⟨i, hi, rfl⟩ := ht.of_key
  obtain ⟨v, hv⟩ := hJ.value i
  exact ⟨v, hv, i, hi, hv⟩

theorem succeeds_getOld (hJ : J.Lawful) (e : Entity) :
    Succeeds exec (Texts J) (getOld J cfg e.key) (Old J e) :=
  .ite (fun _ => succeeds_getValue hJ e) fun _ => .pure nofun

/-- An old value is what the item is read as. -/
theorem succeeds_oldValue (hJ : J.Lawful) (i : Item) :
    Succeeds exec (Texts J) (oldValue J cfg i : Api T _)
      fun old => ∀ v, old = some v → J.value (J.text i) = .ok v := by
  refine .ite (fun _ => ?_) fun _ => .pure nofun
  obtain ⟨v, hv⟩ := hJ.value i
  refine (succeeds_orSimdJson hv).bind ?_
  rintro _ rfl
  exact .pure fun _ h => Option.some.inj h ▸ hv

/-! ### Writing -/

theorem succeeds_setAll {kvs : List (String × Item)} (hkvs : ∀ kv ∈ kvs, Writes (fun _ => True) kv) :
    Succeeds exec (Texts J) (setAll J orders kvs) fun _ => True := by
  refine .ite (fun _ => .pure trivial) fun _ => ?_
  refine (succeeds_redis (fun s hs => hs.mset fun kv hkv => ?_) fun _ _ => trivial).andThen fun _ =>
    .forM fun _ _ => succeeds_redis (fun _ hs => hs) fun _ _ => trivial
  obtain ⟨kv', hkv', rfl⟩ := List.mem_map.mp hkv
  obtain ⟨e, -, hkey, hholds⟩ := hkvs kv' hkv'
  have hstored : newKey kv'.1 = e.stored := hkey ▸ newKey_key e
  exact hstored ▸ .entity hholds

theorem succeeds_set (e : Entity) {i : Item} (h : e.Holds i) :
    Succeeds exec (Texts J) (set J orders e.key i) fun _ => True := by
  refine succeeds_setAll fun kv hkv => ?_
  obtain rfl := List.mem_singleton.mp hkv
  exact ⟨e, trivial, rfl, h⟩

theorem succeeds_delAll (keys : List String) :
    Succeeds exec (Texts J) (delAll orders keys : Api T Unit) fun _ => True := by
  refine .ite (fun _ => .pure trivial) fun _ => ?_
  exact (succeeds_redis (fun s hs => hs.del _) fun _ _ => trivial).andThen fun _ =>
    .forM fun _ _ => succeeds_redis (fun _ hs => hs) fun _ _ => trivial

theorem succeeds_expireAll {now : FormattedDateTime} {keys : List (String × UInt64)}
    (h : ∀ kv ∈ keys, now.add (milliseconds (asI64 kv.2)) ≠ none) :
    Succeeds exec (Texts J) (expireAll J now keys) fun _ => True := by
  refine (Succeeds.mapM (R := fun _ => True) fun kv hkv => ?_).bind fun fields _ => ?_
  · obtain ⟨d, hd⟩ := Option.ne_none_iff_exists'.mp (h kv hkv)
    unfold deadlineField
    rw [hd]
    exact .pure trivial
  · exact .ite (fun _ => .pure trivial) fun _ =>
      succeeds_redis (c := .hset EXPIRY_KEYS fields) (fun _ hs => hs) fun _ _ => trivial

theorem succeeds_delHashmap (key : String) (keys : List String) :
    Succeeds exec (Texts J) (delHashmap key keys : Api T Unit) fun _ => True :=
  .ite (fun _ => .pure trivial) fun _ =>
    succeeds_redis (c := .hdel key keys) (fun _ hs => hs) fun _ _ => trivial

theorem succeeds_clearGuild (hJ : J.Lawful) (g : Id .guild) :
    Succeeds exec (Texts J) (clearGuild J.value orders g) (Old J (.guild g)) := by
  unfold clearGuild
  refine (succeeds_attempt (succeeds_getMembers _)).bind ?_
  rintro _ ⟨members, rfl, -⟩
  refine (succeeds_delAll members).andThen fun _ => ?_
  refine (succeeds_attempt (succeeds_getValue hJ (.guild g))).bind ?_
  rintro _ ⟨old, rfl, hold⟩
  exact (succeeds_delAll _).andThen fun _ => .pure hold

/-- A sweep goes through to its end. -/
theorem safe_sweep : Safe exec (Texts J) (sweep J env) fun _ => True := by
  have hhashmap : Succeeds exec (Texts J) (getHashmap env.orders EXPIRY_KEYS : Api T _)
      fun _ => True :=
    (succeeds_redis (c := .hgetall EXPIRY_KEYS) (fun _ hs => hs) fun _ _ => trivial).andThen fun _ =>
      .pure trivial
  refine Safe.bind hhashmap ?_
  rintro _ ⟨hashmap, rfl, -⟩
  refine Safe.bind (succeeds_delAll _) ?_
  rintro _ ⟨_, rfl, -⟩
  exact Safe.bind (succeeds_delHashmap _ _) fun _ _ => .ret trivial

end TwilightDispatch
