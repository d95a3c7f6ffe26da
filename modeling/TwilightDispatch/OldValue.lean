import TwilightDispatch.History

/-!
# The old value an update returns

An event that updates or deletes an object returns the value the object had. Every arm reads it
with `get` under the key it builds, while values are stored under the rewritten key, so for the
channels of a guild the read misses. `update_old_iff` says that this is the only case in which a
call that returns does not return the value last written for the object.
-/

namespace TwilightDispatch

open Atomic Redis

variable {T V : Type} {J : Json T V} {cfg : Config} {botId : Id .user} {s : Store T} {k : String}
  {ok : Entity → Prop}

/-! ## The object of an event -/

/-- The object an event updates or deletes, for the events that return its old value. -/
def Event.object : Event → Option Entity
  | channelDelete data => some (.channel data.guildId data.id)
  | channelUpdate data => some (.channel data.guildId data.id)
  | guildUpdate data => some (.guild data.id)
  | memberRemove data => some (.member data.guildId data.user.id)
  | memberUpdate data => some (.member data.guildId data.user.id)
  | messageDelete data => some (.message data.channelId data.id)
  | messageUpdate data => some (.message data.channelId data.id)
  | presenceUpdate data => some (.presence data.guildId data.userId)
  | roleDelete data => some (.role data.guildId data.roleId)
  | roleUpdate data => some (.role data.guildId data.role.id)
  | userUpdate _ => some .botUser
  | voiceStateUpdate data => data.guildId.map fun guildId => .voice guildId data.userId
  | _ => none

/-- The configuration caches the kind of the event's object. -/
def Event.enabled (cfg : Config) (botId : Id .user) : Event → Bool
  | memberRemove _ => cfg.stateMember
  | memberUpdate data => cfg.stateMember || data.user.id = botId
  | messageDelete _ => cfg.stateMessage
  | messageUpdate _ => cfg.stateMessage
  | presenceUpdate _ => cfg.statePresence
  | voiceStateUpdate _ => cfg.stateVoice
  | _ => true

/-- The event is about a cached channel of a guild, or refreshes the deadline of a cached object
to a date that is not representable. -/
def OldMissed (cfg : Config) (env : Env) (s : Store T) : Event → Prop
  | .channelDelete data => data.guildId ≠ none ∧ s.Has (privateChannelKey data.id)
  | .channelUpdate data => data.guildId ≠ none ∧ s.Has (privateChannelKey data.id)
  | .memberUpdate data => s.Has (memberKey data.guildId data.user.id) ∧
    env.now.add (milliseconds (asI64 cfg.stateMemberTtl)) = none
  | .messageUpdate data => s.Has (messageKey data.channelId data.id) ∧
    env.now.add (milliseconds (asI64 cfg.stateMessageTtl)) = none
  | _ => False

/-! ## Reads in a reachable state -/

/-- Every stored text decodes. -/
theorem Known.run_get (h : Known J ok s) (hJ : J.Lawful) (k : String) :
    ∃ old, Fallible.run exec (get J.value k) s = (.ok old, s) ∧
      (s.strings k).map J.value = old.map .ok := by
  cases ht : s.strings k with
  | none => exact ⟨none, run_get_none ht, rfl⟩
  | some t =>
    obtain ⟨e, i, -, -, -, rfl⟩ := h k t ht
    obtain ⟨v, hv⟩ := hJ.value i
    exact ⟨some v, run_get_some ht hv, congrArg some hv⟩

theorem Known.run_getOld (h : Known J ok s) (hJ : J.Lawful) (hold : cfg.stateOld = true)
    (k : String) : ∃ old, Fallible.run exec (getOld J cfg k) s = (.ok old, s) ∧
      (s.strings k).map J.value = old.map .ok := by
  unfold getOld
  rw [if_pos hold]
  exact h.run_get hJ k

/-- The text stored for an entity is that of one of its values. -/
theorem Known.text {e : Entity} (h : Known J ok s) (he : e.kind ≠ CHANNEL_KEY) {t : T}
    (ht : s.strings e.stored = some t) : ∃ i, e.Holds i ∧ t = J.text i := by
  obtain ⟨e', i, -, hk, hi, rfl⟩ := h _ t ht
  obtain rfl := Entity.stored_inj hk.symm he
  exact ⟨i, hi, rfl⟩

/-- What is stored for an entity, where its values are the values `wrap a`. -/
theorem Known.cached {α : Type} {wrap : α → Item} (h : Known J ok s) (e : Entity)
    (he : e.kind ≠ CHANNEL_KEY) (hwrap : ∀ i, e.Holds i → ∃ a, i = wrap a) :
    ∃ a : Option α, s.strings e.stored = a.map fun a => J.text (wrap a) := by
  cases ht : s.strings e.stored with
  | none => exact ⟨none, rfl⟩
  | some t =>
    obtain ⟨i, hi, rfl⟩ := h.text he ht
    obtain ⟨a, rfl⟩ := hwrap i hi
    exact ⟨some a, rfl⟩

theorem run_oldValue (hJ : J.Lawful) (hold : cfg.stateOld = true) (i : Item) :
    ∃ v, J.value (J.text i) = .ok v ∧
      Fallible.run exec (oldValue J cfg i : Api T _) s = (.ok (some v), s) := by
  obtain ⟨v, hv⟩ := hJ.value i
  refine ⟨v, hv, ?_⟩
  unfold oldValue toValue
  rw [if_pos hold, hv]
  rfl

variable (cfg) in
/-- With or without the old state, reading it succeeds. -/
theorem getOld_ok (hk : Known J ok s) (hJ : J.Lawful) (key : String) :
    ∃ old, Fallible.run exec (getOld J cfg key) s = (.ok old, s) := by
  unfold getOld
  split_ifs
  · obtain ⟨old, hget, -⟩ := hk.run_get hJ key
    exact ⟨old, hget⟩
  · exact ⟨none, rfl⟩

variable (cfg) in
/-- With or without the old state, the old value is found without a command. -/
theorem oldValue_ok (hJ : J.Lawful) (i : Item) :
    ∃ old, Fallible.run exec (oldValue J cfg i : Api T _) s = (.ok old, s) := by
  cases hcfg : cfg.stateOld with
  | true =>
    obtain ⟨v, -, hrun⟩ := run_oldValue (s := s) hJ hcfg i
    exact ⟨some v, hrun⟩
  | false =>
    unfold oldValue
    rw [hcfg]
    exact ⟨none, rfl⟩

theorem run_expire (now : FormattedDateTime) (key : String) (ttl : UInt64) :
    Fallible.run exec (expire J now key ttl) s = match now.add (milliseconds (asI64 ttl)) with
      | some d => (.ok (), apply (.hset EXPIRY_KEYS [(key, J.text (.timestamp d))]) s)
      | none => (.error .panic, s) := by
  unfold expire
  rw [run_expireAll, deadlines_cons]
  cases now.add (milliseconds (asI64 ttl)) <;> rfl

variable (cfg s) in
/-- The end of the arms that read, change and write back an object leaves what writing the object
leaves, deadlines apart. -/
theorem run_refresh_snd (hJ : J.Lawful) (env : Env) (i i' : Item) (key : String) (ttl : UInt64) :
    ∃ hashes, (Fallible.run exec (do
      let old ← oldValue J cfg i
      set J env.orders key i'
      expire J env.now key ttl
      return old) s).2 = { putAll J [(key, i')] s with hashes := hashes } := by
  obtain ⟨old, hrun⟩ := oldValue_ok cfg hJ i
  rw [Fallible.run_bind_ok hrun, Fallible.run_bind_ok (run_set key i'), Fallible.run_bind,
    run_expire]
  cases env.now.add (milliseconds (asI64 ttl)) with
  | none => exact ⟨_, rfl⟩
  | some d => exact ⟨_, rfl⟩

theorem strings_refresh (hJ : J.Lawful) (env : Env) (i i' : Item) (e : Entity) (ttl : UInt64) :
    (Fallible.run exec (do
      let old ← oldValue J cfg i
      set J env.orders e.stored i'
      expire J env.now e.stored ttl
      return old) s).2.strings e.stored = some (J.text i') := by
  obtain ⟨hashes, hrun⟩ := run_refresh_snd cfg s hJ env i i' e.stored ttl
  rw [hrun]
  simp [storedPairs, lastOf_cons]

/-- The key built for a channel of a guild is never stored. -/
theorem Indexed.strings_guildChannelKey (h : Indexed s) (g : Id .guild) (c : Id .channel) :
    s.strings (guildChannelKey g c) = none := by
  by_contra hk
  have hnew : newKey (guildChannelKey g c) = privateChannelKey c := newKey_key (.channel (some g) c)
  have hsplit := congrArg split ((h.stored _ hk).symm.trans hnew)
  simp at hsplit

/-! ## What an update returns -/

/-- The update returns, and what it returns is the stored value of `e`. -/
def ReturnsStored (J : Json T V) (s : Store T) (e : Entity) (r : Except Failure (Option V)) : Prop :=
  ∃ old, r = .ok old ∧ (s.strings e.stored).map J.value = old.map .ok

section Arms

variable (h : Known J ok s) (hJ : J.Lawful) (hold : cfg.stateOld = true)
include h hJ hold

/-- An arm that reads under the stored key and then completes returns the stored value. -/
theorem returnsStored_of_getOld {e : Entity} {x : Option V → Api T (Option V)}
    (hx : ∀ old, ∃ s', Fallible.run exec (x old) s = (.ok old, s')) :
    ReturnsStored J s e (Fallible.run exec (getOld J cfg e.stored >>= x) s).1 := by
  obtain ⟨old, hget, heq⟩ := h.run_getOld hJ hold e.stored
  obtain ⟨s', hrun⟩ := hx old
  exact ⟨old, by rw [Fallible.run_bind_ok hget, hrun], heq⟩

/-- An arm that reads under the key built for a channel of a guild returns nothing, which is right
if the channel is not cached. -/
theorem returnsStored_of_miss (hi : Indexed s) {g : Id .guild} {c : Id .channel}
    {x : Option V → Api T (Option V)}
    (hx : ∀ old, ∃ s', Fallible.run exec (x old) s = (.ok old, s')) :
    ReturnsStored J s (.channel (some g) c)
      (Fallible.run exec (getOld J cfg (guildChannelKey g c) >>= x) s).1 ↔
        ¬ s.Has (privateChannelKey c) := by
  have hnone := hi.strings_guildChannelKey g c
  obtain ⟨old, hget, heq⟩ := h.run_getOld hJ hold (guildChannelKey g c)
  obtain rfl : old = none := by
    rw [hnone] at heq
    exact Option.map_eq_none_iff.mp heq.symm
  obtain ⟨s', hrun⟩ := hx none
  rw [Fallible.run_bind_ok hget, hrun]
  unfold ReturnsStored Store.Has
  rw [not_not]
  constructor
  · rintro ⟨old, hr, heq⟩
    obtain rfl := Except.ok.inj hr
    exact Option.map_eq_none_iff.mp heq
  · intro hs
    refine ⟨none, rfl, ?_⟩
    rw [show Entity.stored (.channel (some g) c) = privateChannelKey c from rfl, hs]
    rfl

omit h in
/-- The end of the arms that read, change and write back an object. -/
theorem run_refresh (env : Env) (i i' : Item) (key : String) (ttl : UInt64) :
    ∃ v, J.value (J.text i) = .ok v ∧ (Fallible.run exec (do
      let old ← oldValue J cfg i
      set J env.orders key i'
      expire J env.now key ttl
      return old) s).1 = match env.now.add (milliseconds (asI64 ttl)) with
        | some _ => .ok (some v)
        | none => .error .panic := by
  obtain ⟨v, hv, hrun⟩ := run_oldValue (s := s) hJ hold i
  refine ⟨v, hv, ?_⟩
  rw [Fallible.run_bind_ok hrun, Fallible.run_bind_ok (run_set key i'), Fallible.run_bind,
    run_expire]
  cases env.now.add (milliseconds (asI64 ttl)) <;> rfl

/-- An arm that reads, changes and writes back a member or a message. -/
theorem returnsStored_of_refresh {α : Type} {decode : T → Except SimdJsonError α}
    {e : Entity} (he : e.kind ≠ CHANNEL_KEY) {wrap : α → Item}
    (hdecode : ∀ a, decode (J.text (wrap a)) = .ok a) (hwrap : ∀ i, e.Holds i → ∃ a, i = wrap a)
    (env : Env) (ttl : UInt64) (change : α → α) {x : Option α → Api T (Option V)}
    (hnone : x none = pure none) (hsome : ∀ a, x (some a) = (do
      let old ← oldValue J cfg (wrap a)
      set J env.orders e.stored (wrap (change a))
      expire J env.now e.stored ttl
      return old)) :
    ReturnsStored J s e (Fallible.run exec (get decode e.stored >>= x) s).1 ↔
      ¬ (s.Has e.stored ∧ env.now.add (milliseconds (asI64 ttl)) = none) := by
  cases ht : s.strings e.stored with
  | none =>
    rw [Fallible.run_bind_ok (run_get_none ht), hnone]
    exact iff_of_true ⟨none, rfl, by rw [ht]; rfl⟩ fun hk => hk.1 ht
  | some t =>
    have hhas : s.Has e.stored := by
      unfold Store.Has
      rw [ht]
      exact nofun
    obtain ⟨i, hi, rfl⟩ := h.text he ht
    obtain ⟨a, rfl⟩ := hwrap i hi
    obtain ⟨v, hv, hrun⟩ := run_refresh (s := s) hJ hold env (wrap a) (wrap (change a)) e.stored ttl
    rw [Fallible.run_bind_ok (run_get_some ht (hdecode a)), hsome, hrun]
    cases env.now.add (milliseconds (asI64 ttl)) with
    | none =>
      refine iff_of_false ?_ fun hn => hn ⟨hhas, rfl⟩
      rintro ⟨old, hr, -⟩
      cases hr
    | some d =>
      refine iff_of_true ⟨some v, rfl, ?_⟩ fun hk => nomatch hk.2
      rw [ht]
      exact congrArg some hv

/-- **What an update returns in a reachable state.** -/
theorem returnsStored_update_iff (hi : Indexed s) (env : Env) {event : Event} {e : Entity}
    (he : event.object = some e) (hen : event.enabled cfg botId = true) :
    ReturnsStored J s e (Fallible.run exec (update J cfg botId env event) s).1 ↔
      ¬ OldMissed cfg env s event := by
  have hset : ∀ (key : String) (i : Item) (old : Option V), ∃ s',
      Fallible.run exec (do set J env.orders key i; return old) s = (.ok old, s') :=
    fun key i old => ⟨_, Fallible.run_bind_ok (run_set key i)⟩
  have hdel : ∀ (key : String) (old : Option V), ∃ s',
      Fallible.run exec (do del env.orders key; return old) s = (.ok old, s') :=
    fun key old => ⟨_, Fallible.run_bind_ok (run_del key)⟩
  cases event with
  | channelDelete data =>
    obtain rfl := Option.some.inj he
    rcases data with ⟨c, _ | g, pins, extra⟩
    · exact iff_of_true (returnsStored_of_getOld h hJ hold (hdel _)) fun hm => hm.1 rfl
    · refine (returnsStored_of_miss h hJ hold hi (hdel _)).trans (not_congr ?_)
      exact (and_iff_right nofun).symm
  | channelUpdate data =>
    obtain rfl := Option.some.inj he
    rcases data with ⟨c, _ | g, pins, extra⟩
    · exact iff_of_true (returnsStored_of_getOld h hJ hold (hset _ _)) fun hm => hm.1 rfl
    · refine (returnsStored_of_miss h hJ hold hi (hset _ _)).trans (not_congr ?_)
      exact (and_iff_right nofun).symm
  | guildUpdate data =>
    obtain rfl := Option.some.inj he
    exact iff_of_true (returnsStored_of_getOld h hJ hold (hset _ _)) id
  | memberRemove data =>
    obtain rfl := Option.some.inj he
    refine iff_of_true ?_ id
    have hup : update J cfg botId env (.memberRemove data) = _ := if_pos hen
    rw [hup]
    refine returnsStored_of_getOld h hJ hold fun old => ?_
    rw [Fallible.run_bind_ok (run_del _)]
    cases cfg.statePresence with
    | true => exact ⟨_, Fallible.run_bind_ok (run_del _)⟩
    | false => exact ⟨_, rfl⟩
  | memberUpdate data =>
    obtain rfl := Option.some.inj he
    have hup : update J cfg botId env (.memberUpdate data) = _ := if_pos hen
    rw [hup]
    have hkind : MEMBER_KEY ≠ CHANNEL_KEY := by decide
    exact returnsStored_of_refresh (e := .member _ _) h hJ hold hkind hJ.member
      (fun i hi => by cases i <;> first | exact ⟨_, rfl⟩ | exact hi.elim) env _ data.merge rfl
      fun _ => rfl
  | messageDelete data =>
    obtain rfl := Option.some.inj he
    refine iff_of_true ?_ id
    have hup : update J cfg botId env (.messageDelete data) = _ := if_pos hen
    rw [hup]
    exact returnsStored_of_getOld h hJ hold (hdel _)
  | messageUpdate data =>
    obtain rfl := Option.some.inj he
    have hup : update J cfg botId env (.messageUpdate data) = _ := if_pos hen
    rw [hup]
    have hkind : MESSAGE_KEY ≠ CHANNEL_KEY := by decide
    exact returnsStored_of_refresh (e := .message _ _) h hJ hold hkind hJ.message
      (fun i hi => by cases i <;> first | exact ⟨_, rfl⟩ | exact hi.elim) env _ data.merge rfl
      fun _ => rfl
  | presenceUpdate data =>
    obtain rfl := Option.some.inj he
    refine iff_of_true ?_ id
    have hup : update J cfg botId env (.presenceUpdate data) = _ := if_pos hen
    rw [hup]
    exact returnsStored_of_getOld h hJ hold (hset _ _)
  | roleDelete data =>
    obtain rfl := Option.some.inj he
    exact iff_of_true (returnsStored_of_getOld h hJ hold (hdel _)) id
  | roleUpdate data =>
    obtain rfl := Option.some.inj he
    exact iff_of_true (returnsStored_of_getOld h hJ hold (hset _ _)) id
  | userUpdate data =>
    obtain rfl := Option.some.inj he
    exact iff_of_true (returnsStored_of_getOld h hJ hold (hset _ _)) id
  | voiceStateUpdate data =>
    have hup : update J cfg botId env (.voiceStateUpdate data) = _ := if_pos hen
    rw [hup]
    rcases data with ⟨_ | g, _ | c, u, extra⟩
    · cases he
    · cases he
    · obtain rfl := Option.some.inj he
      exact iff_of_true (returnsStored_of_getOld h hJ hold (hdel _)) id
    · obtain rfl := Option.some.inj he
      exact iff_of_true (returnsStored_of_getOld h hJ hold (hset _ _)) id
  | _ => cases he

end Arms

/-! ## After every run -/

/-- **The old value.** After every run, an update of an enabled kind returns the value last written
for its object and not deleted since, or nothing if there is none, exactly if it is not about a
cached channel of a guild (and no deadline it sets fails to be a date). -/
theorem update_old_iff {J : Json T V} (hJ : J.Lawful) {cfg : Config} (hold : cfg.stateOld = true)
    (botId : Id .user) (steps : List Step) (env : Env) {event : Event} {e : Entity}
    (he : event.object = some e) (hen : event.enabled cfg botId = true) :
    let l := ledgerAfter J cfg botId steps
    (∃ old, (Fallible.run exec (update J cfg botId env event) l.1).1 = .ok old ∧
      (lastWrite l.2 e.stored).map (fun write => J.value write.2) = old.map .ok) ↔
        ¬ OldMissed cfg env l.1 event := by
  intro l
  have hl : l.1 = stateAfter J cfg botId steps := ledgerAfter_fst steps
  have hok : ∀ step ∈ steps, step.Ok fun _ => True := fun step _ => step.ok_true
  have hknown : Known J (fun _ => True) l.1 := by
    rw [hl]
    exact (Known.stable _).stateAfter .empty hok
  have hindexed : Indexed l.1 := by
    rw [hl]
    exact (Indexed.stable (J := J) _).stateAfter .empty hok
  have hlast : (lastWrite l.2 e.stored).map (fun write => J.value write.2) =
      (l.1.strings e.stored).map J.value := by
    rw [← ledger_strings, Option.map_map]
    rfl
  rw [hlast]
  exact returnsStored_update_iff hknown hJ hold hindexed env he hen

/-- The update of a role that was created returns the created role. -/
theorem update_old_role :
    let l := ledgerAfter Json.plain .full (.of 9)
      [⟨.at (.of 0), .event (.roleCreate ⟨.of 1, ⟨.of 3, "old"⟩⟩)⟩]
    ∃ old, (Fallible.run exec (update Json.plain .full (.of 9) (.at (.of 0))
        (.roleUpdate ⟨.of 1, ⟨.of 3, "new"⟩⟩)) l.1).1 = .ok old ∧
      (lastWrite l.2 (roleKey (.of 1) (.of 3))).map (fun write => Json.plain.value write.2) =
        old.map .ok :=
  (update_old_iff Json.plain_lawful rfl (.of 9) _ _ (e := .role (.of 1) (.of 3)) rfl rfl).mpr id

/-- The update of a channel of a guild that was created returns nothing. -/
theorem update_old_missed :
    let l := ledgerAfter Json.plain .full (.of 9)
      [⟨.at (.of 0), .event (.channelCreate ⟨.of 2, some (.of 1), none, "old"⟩)⟩]
    ¬ ∃ old, (Fallible.run exec (update Json.plain .full (.of 9) (.at (.of 0))
        (.channelUpdate ⟨.of 2, some (.of 1), none, "new"⟩)) l.1).1 = .ok old ∧
      (lastWrite l.2 (privateChannelKey (.of 2))).map (fun write => Json.plain.value write.2) =
        old.map .ok := by
  intro l
  have hwritten : (lastWrite l.2 (privateChannelKey (.of 2))).isSome = true := by decide +kernel
  have hnothing : ((Fallible.run exec (update Json.plain .full (.of 9) (.at (.of 0))
      (.channelUpdate ⟨.of 2, some (.of 1), none, "new"⟩)) l.1).1.toOption.bind id).isNone = true := by
    decide +kernel
  rintro ⟨old, hr, heq⟩
  rw [hr] at hnothing
  cases old with
  | none => simp [Option.map_eq_none_iff.mp heq] at hwritten
  | some v => cases hnothing

end TwilightDispatch
