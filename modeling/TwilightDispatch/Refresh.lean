import TwilightDispatch.Atomic.Logged
import TwilightDispatch.Created
import TwilightDispatch.OldValue

/-!
# Refreshes and the sweep

An event that writes a member or a message gives it a deadline, and a sweep that runs at the same time
decides on the deadlines it has read before. `refresh_kept` says which interleavings keep what the event
has written: those in which the sweep has not read a deadline that was past, or has deleted the old
entries before the event writes the new ones.
-/

namespace TwilightDispatch

open Atomic Redis

variable {T V : Type} {J : Json T V} {cfg : Config} {botId : Id .user} {env : Env} {s : Store T}
  {orders : Orders} {k : String} {item : Item} {d : FormattedDateTime}

/-! ## What the operations issue -/

theorem yields_redis (c : Cmd T) :
    Fallible.Yields exec (redis c) fun l r => ∃ st, l = [(c, st)] ∧ r = .ok (reply c st) := by
  intro l r h
  cases h with
  | @step _ _ st _ _ h =>
    cases h
    exact ⟨st, rfl, rfl⟩

/-- Commands without an answer, one after another. -/
theorem yields_forM_redis {β : Type} (bs : List β) (f : β → Cmd T) (g : β → Api T Unit)
    (hg : ∀ b ∈ bs, Fallible.Yields exec (g b) fun l r => r = .ok () ∧ l.map Prod.fst = [f b]) :
    Fallible.Yields exec (bs.forM g) fun l r => r = .ok () ∧ l.map Prod.fst = bs.map f := by
  induction bs with
  | nil => exact Fallible.yields_pure ⟨rfl, rfl⟩
  | cons b bs ih =>
    refine Fallible.yields_bind ((hg b List.mem_cons_self).mono ?_)
    rintro l _ ⟨rfl, hl⟩
    refine (ih fun b' hb' => hg b' (List.mem_cons_of_mem _ hb')).mono ?_
    rintro l' r ⟨rfl, hl'⟩
    exact ⟨rfl, by rw [List.map_append, hl, hl']; rfl⟩

theorem yields_setAll {kvs : List (String × Item)} (hne : kvs ≠ []) :
    Fallible.Yields exec (setAll J orders kvs) fun l r => r = .ok () ∧
      l.map Prod.fst = .mset (storedPairs J kvs) ::
        (orders.members ((kvs.flatMap fun kv => setMembers kv.1).foldl pushMember [])).map
          fun kv => .sadd kv.1 kv.2 := by
  unfold setAll
  simp only [List.isEmpty_map, List.isEmpty_iff, hne, if_false]
  refine Fallible.yields_bind ((yields_redis _).mono ?_)
  rintro _ _ ⟨st, rfl, rfl⟩
  refine (yields_forM_redis _ (fun kv => .sadd kv.1 kv.2) _ fun kv _ => ?_).mono ?_
  · refine (yields_redis _).mono ?_
    rintro _ _ ⟨st', rfl, rfl⟩
    exact ⟨rfl, rfl⟩
  · rintro l r ⟨rfl, hl⟩
    exact ⟨rfl, congrArg (_ :: ·) hl⟩

theorem yields_delAll (keys : List String) :
    Fallible.Yields exec (delAll orders keys : Api T Unit) fun l r => r = .ok () ∧
      ∀ c ∈ l.map Prod.fst, c = .del (keys.map newKey) ∨
        ∃ S ms, c = .srem S ms ∧ ∀ m ∈ ms, m ∈ keys.map newKey := by
  unfold delAll
  by_cases hne : keys = []
  · rw [if_pos (by simp [hne])]
    exact Fallible.yields_pure ⟨rfl, nofun⟩
  · simp only [List.isEmpty_map, List.isEmpty_iff, hne, if_false]
    refine Fallible.yields_bind ((yields_redis _).mono ?_)
    rintro _ _ ⟨st, rfl, rfl⟩
    refine (yields_forM_redis _ (fun kv => .srem kv.1 kv.2) _ fun kv _ => ?_).mono ?_
    · refine (yields_redis _).mono ?_
      rintro _ _ ⟨st', rfl, rfl⟩
      exact ⟨rfl, rfl⟩
    · rintro l r ⟨rfl, hl⟩
      refine ⟨rfl, fun c hc => ?_⟩
      rw [List.map_append, hl] at hc
      rcases List.mem_cons.mp hc with rfl | hc
      · exact .inl rfl
      · obtain ⟨kv, hkv, rfl⟩ := List.mem_map.mp hc
        refine .inr ⟨kv.1, kv.2, rfl, fun m hm => ?_⟩
        have hmem : (kv.1, m) ∈ keys.flatMap delMembers := exists_mem_members.mp ⟨kv.2, hkv, hm⟩
        obtain ⟨key, hkey, hm⟩ := List.mem_flatMap.mp hmem
        rw [delMembers_eq] at hm
        exact List.mem_map.mpr ⟨key, hkey, (eq_newKey_of_mem_setMembers hm).symm⟩

/-- The deadlines are computed without a command. -/
theorem mapM_deadlineField (now : FormattedDateTime) (exps : List (String × UInt64)) :
    (exps.mapM (deadlineField J now) : Api T _) = match deadlines J now exps with
      | some fields => pure fields
      | none => throw .panic := by
  induction exps with
  | nil => rfl
  | cons kv exps ih =>
    rw [List.mapM_cons, ih, deadlines_cons]
    unfold deadlineField
    cases now.add (milliseconds (asI64 kv.2)) with
    | none => rfl
    | some timestamp => cases deadlines J now exps <;> rfl

theorem yields_expireAll {now : FormattedDateTime} {exps : List (String × UInt64)}
    {fields : List (String × T)} (hdead : deadlines J now exps = some fields) (hne : fields ≠ []) :
    Fallible.Yields exec (expireAll J now exps) fun l r =>
      r = .ok () ∧ l.map Prod.fst = [.hset EXPIRY_KEYS fields] := by
  unfold expireAll
  rw [mapM_deadlineField, hdead, pure_bind, if_neg (by simpa using hne)]
  refine (yields_redis _).mono ?_
  rintro _ _ ⟨st, rfl, rfl⟩
  exact ⟨rfl, rfl⟩

theorem yields_get {α : Type} (decode : T → Except SimdJsonError α) (key : String) :
    Fallible.Yields exec (get decode key) fun l r => ∃ st, l = [(.get key, st)] ∧
      match st.strings key with
      | none => r = .ok none
      | some t => r = ((decode t).map some).mapError fun err => .error (.simdJson err) := by
  refine Fallible.yields_bind ((yields_redis _).mono ?_)
  rintro _ _ ⟨st, rfl, rfl⟩
  cases ht : st.strings key with
  | none =>
    have hreply : reply (.get key) st = none := ht
    simp only [hreply]
    exact Fallible.yields_pure ⟨st, rfl, by rw [ht]⟩
  | some t =>
    have hreply : reply (.get key) st = some t := ht
    simp only [hreply]
    cases hdec : decode t with
    | ok a => exact Fallible.yields_pure ⟨st, rfl, by simp only [ht, hdec]; rfl⟩
    | error err => exact Fallible.yields_ret ⟨st, rfl, by simp only [ht, hdec]; rfl⟩

theorem yields_attempt {α : Type} {x : Api T α} {Q : List (Cmd T × Store T) → Except Failure α → Prop}
    (h : Fallible.Yields exec x Q) : Fallible.Yields exec (attempt x) fun l r =>
      match r with
      | .ok (.ok a) => Q l (.ok a)
      | .ok (.error err) => Q l (.error (.error err))
      | .error _ => Q l (.error .panic) := by
  intro l r hissues
  unfold attempt at hissues
  rw [ExceptT.run_bind, ExceptT.run_lift, ← bind_pure_comp] at hissues
  obtain ⟨r', l₁, l₂, rfl, hlift, hrest⟩ := hissues.bind
  obtain ⟨r₀, l₃, l₄, rfl, hx, hret⟩ := hlift.bind
  cases hret
  have hQ := h _ _ hx
  rcases r₀ with (err | _) | a <;> cases hrest <;> simpa using hQ

/-- On a server that does not fail, clearing a guild returns what it has read of the guild. -/
theorem yields_clearGuild {α : Type} (decode : T → Except SimdJsonError α) (g : Id .guild) :
    Fallible.Yields exec (clearGuild decode orders g) fun l r =>
      ∃ st, (.get (guildKey g), st) ∈ l ∧
        r = .ok ((st.strings (guildKey g)).bind fun t => (decode t).toOption) := by
  have hmembers : Fallible.Yields exec (getMembers orders (guildKeys (toString g)) : Api T _)
      fun _ r => ∃ members, r = .ok members := by
    refine Fallible.yields_bind ((yields_redis _).mono ?_)
    rintro _ _ ⟨st, rfl, rfl⟩
    exact Fallible.yields_pure ⟨_, rfl⟩
  have hget : Fallible.Yields exec (get decode (guildKey g)) fun l r => match r with
      | .ok guild => ∃ st, l = [(.get (guildKey g), st)] ∧
        guild = (st.strings (guildKey g)).bind fun t => (decode t).toOption
      | .error err => err ≠ .panic ∧ ∃ st, l = [(.get (guildKey g), st)] ∧
        ((st.strings (guildKey g)).bind fun t => (decode t).toOption) = none := by
    refine (yields_get decode (guildKey g)).mono ?_
    rintro _ r ⟨st, rfl, hr⟩
    cases ht : st.strings (guildKey g) with
    | none =>
      simp only [ht] at hr
      subst hr
      exact ⟨st, rfl, by rw [ht]; rfl⟩
    | some t =>
      simp only [ht] at hr
      subst hr
      cases hdec : decode t with
      | ok a => exact ⟨st, rfl, by rw [ht, Option.bind_some, hdec]; rfl⟩
      | error err =>
        refine ⟨by simp, st, rfl, ?_⟩
        rw [ht, Option.bind_some, hdec]
        rfl
  unfold clearGuild
  refine Fallible.yields_bind ((yields_attempt hmembers).mono ?_)
  intro l r hr
  rcases r with err | err | members
  · obtain ⟨_, h⟩ := hr
    cases h
  · obtain ⟨_, h⟩ := hr
    cases h
  refine Fallible.yields_bind ((yields_delAll members).mono ?_)
  rintro l₁ _ ⟨rfl, -⟩
  refine Fallible.yields_bind ((yields_attempt hget).mono ?_)
  intro l₂ r hr
  rcases r with err | err | guild
  · exact absurd rfl hr.1
  · obtain ⟨st, rfl, hnone⟩ := hr.2
    exact Fallible.yields_pure ⟨st, by simp, by rw [hnone]⟩
  · obtain ⟨st, rfl, rfl⟩ := hr
    refine Fallible.yields_bind ((yields_delAll [guildKey g]).mono ?_)
    rintro l₃ _ ⟨rfl, -⟩
    exact Fallible.yields_pure ⟨st, by simp, rfl⟩

/-! ## What an event refreshes -/

/-- The entries an event writes and gives a deadline, if it finds what is stored. -/
def Event.refreshes (J : Json T V) (cfg : Config) (botId : Id .user) (s : Store T) :
    Event → List (String × Item)
  | memberAdd data =>
    if cfg.stateMember then [(memberKey data.guildId data.user.id, .member data)] else []
  | memberUpdate data =>
    if cfg.stateMember || data.user.id = botId then
      match (s.strings (memberKey data.guildId data.user.id)).map J.member with
      | some (.ok member) =>
        [(memberKey data.guildId data.user.id, .member (data.merge member))]
      | _ => []
    else []
  | memberChunk data =>
    if cfg.stateMember then
      data.members.map fun member => (memberKey data.guildId member.user.id, .member member)
    else []
  | guildCreate data =>
    if cfg.stateMember then
      data.members.map fun member => (memberKey data.id member.user.id, .member member)
    else []
  | messageCreate data =>
    if cfg.stateMessage then [(messageKey data.channelId data.id, .message data)] else []
  | messageUpdate data =>
    if cfg.stateMessage then
      match (s.strings (messageKey data.channelId data.id)).map J.message with
      | some (.ok message) =>
        [(messageKey data.channelId data.id, .message (data.merge message))]
      | _ => []
    else []
  | _ => []

/-- The commands end with the writes of an entry: its value, its places in the indexes, its deadline. -/
def Refreshing (J : Json T V) (k : String) (item : Item) (d : FormattedDateTime)
    (cmds : List (Cmd T)) : Prop :=
  ∃ (before adds : List (Cmd T)) (kvs fields : List (String × T)),
    cmds = before ++ .mset kvs :: (adds ++ [.hset EXPIRY_KEYS fields]) ∧
    lastOf kvs k = some (J.text item) ∧
    (∀ c ∈ adds, ∃ S ms, c = .sadd S ms) ∧
    (∀ S, (S, k) ∈ setMembers k → ∃ ms, .sadd S ms ∈ adds ∧ k ∈ ms) ∧
    lastOf fields k = some (J.text (.timestamp d))

theorem Refreshing.append {cmds : List (Cmd T)} (h : Refreshing J k item d cmds)
    (cmds' : List (Cmd T)) : Refreshing J k item d (cmds' ++ cmds) := by
  obtain ⟨before, adds, kvs, fields, rfl, h⟩ := h
  exact ⟨cmds' ++ before, adds, kvs, fields, by rw [List.append_assoc], h⟩

theorem deadlines_map {now : FormattedDateTime} {ttl : UInt64}
    (hd : now.add (milliseconds (asI64 ttl)) = some d) (keys : List String) :
    deadlines J now (keys.map (·, ttl)) = some (keys.map (·, J.text (.timestamp d))) := by
  induction keys with
  | nil => rfl
  | cons key keys ih =>
    rw [List.map_cons, deadlines_cons, ih, hd]
    rfl

theorem lastOf_map_const {keys : List String} {t : T} (hk : k ∈ keys) :
    lastOf (keys.map (·, t)) k = some t := by
  have hmem : k ∈ (keys.map (·, t)).map Prod.fst := by simpa using hk
  obtain ⟨t', ht'⟩ := exists_lastOf hmem
  obtain ⟨key, -, heq⟩ := List.mem_map.mp (mem_of_lastOf ht')
  rw [ht', (Prod.mk.inj heq).2]

/-- A batch and its deadlines are written after one another. -/
theorem yields_batch {ttl : UInt64} {kvs : List (String × Item)} {keys : List String}
    (hd : env.now.add (milliseconds (asI64 ttl)) = some d)
    (hlast : lastOf (storedPairs J kvs) k = some (J.text item))
    (hkvs : k ∈ kvs.map Prod.fst) (hkeys : k ∈ keys) (old : Option V) :
    Fallible.Yields exec (do
      setAll J env.orders kvs
      expireAll J env.now (keys.map (·, ttl))
      return old) fun l _ => Refreshing J k item d (l.map Prod.fst) := by
  have hne : kvs ≠ [] := by
    rintro rfl
    cases hkvs
  have hfields : keys.map (·, J.text (.timestamp d)) ≠ [] := by
    rintro heq
    rw [List.map_eq_nil_iff.mp heq] at hkeys
    cases hkeys
  refine Fallible.yields_bind ((yields_setAll hne).mono ?_)
  rintro l _ ⟨rfl, hl⟩
  refine Fallible.yields_bind ((yields_expireAll (deadlines_map hd keys) hfields).mono ?_)
  rintro l' _ ⟨rfl, hl'⟩
  refine Fallible.yields_pure ⟨[], (env.orders.members
    ((kvs.flatMap fun kv => setMembers kv.1).foldl pushMember [])).map fun kv => .sadd kv.1 kv.2, _, _,
    ?_, hlast, ?_, ?_, lastOf_map_const hkeys⟩
  · rw [List.map_append, List.map_append, hl, hl']
    simp
  · intro c hc
    obtain ⟨kv, -, rfl⟩ := List.mem_map.mp hc
    exact ⟨kv.1, kv.2, rfl⟩
  · intro S hS
    obtain ⟨kv, hkv, rfl⟩ := List.mem_map.mp hkvs
    have hmem : (S, kv.1) ∈ kvs.flatMap fun kv => setMembers kv.1 :=
      List.mem_flatMap.mpr ⟨kv, hkv, hS⟩
    obtain ⟨values, hvalues, hm⟩ := exists_mem_members.mpr hmem
    exact ⟨values, List.mem_map.mpr ⟨(S, values), hvalues, rfl⟩, hm⟩

/-- An entry and its deadline are written after one another. -/
theorem yields_setExpire {ttl : UInt64} (hd : env.now.add (milliseconds (asI64 ttl)) = some d)
    (hnew : newKey k = k) (old : Option V) :
    Fallible.Yields exec (do
      set J env.orders k item
      expire J env.now k ttl
      return old) fun l _ => Refreshing J k item d (l.map Prod.fst) := by
  have hlast : lastOf (storedPairs J [(k, item)]) k = some (J.text item) := by
    simp [storedPairs, lastOf_cons, hnew]
  have hkvs : k ∈ [(k, item)].map Prod.fst := List.mem_cons_self
  have hkeys : k ∈ [k] := List.mem_cons_self
  exact yields_batch hd hlast hkvs hkeys old

/-! ## What an event issues -/

/-- What is refreshed is a member or a message. -/
theorem kindOf_of_refreshes {event : Event} (h : (k, item) ∈ event.refreshes J cfg botId s) :
    kindOf k ≠ CHANNEL_KEY := by
  have hmember (g : Id .guild) (u : Id .user) : kindOf (memberKey g u) ≠ CHANNEL_KEY := by
    rw [show kindOf (memberKey g u) = MEMBER_KEY from kindOf_stored (.member g u)]
    decide
  have hmessage (c : Id .channel) (m : Id .message) : kindOf (messageKey c m) ≠ CHANNEL_KEY := by
    rw [show kindOf (messageKey c m) = MESSAGE_KEY from kindOf_stored (.message c m)]
    decide
  cases event with
  | memberAdd data =>
    simp only [Event.refreshes] at h
    split_ifs at h
    · obtain ⟨rfl, -⟩ := Prod.mk.inj (List.mem_singleton.mp h)
      exact hmember _ _
    · cases h
  | memberUpdate data =>
    simp only [Event.refreshes] at h
    split_ifs at h
    · split at h
      · obtain ⟨rfl, -⟩ := Prod.mk.inj (List.mem_singleton.mp h)
        exact hmember _ _
      · cases h
    · cases h
  | memberChunk data =>
    simp only [Event.refreshes] at h
    split_ifs at h
    · obtain ⟨member, -, heq⟩ := List.mem_map.mp h
      obtain ⟨rfl, -⟩ := Prod.mk.inj heq
      exact hmember _ _
    · cases h
  | guildCreate data =>
    simp only [Event.refreshes] at h
    split_ifs at h
    · obtain ⟨member, -, heq⟩ := List.mem_map.mp h
      obtain ⟨rfl, -⟩ := Prod.mk.inj heq
      exact hmember _ _
    · cases h
  | messageCreate data =>
    simp only [Event.refreshes] at h
    split_ifs at h
    · obtain ⟨rfl, -⟩ := Prod.mk.inj (List.mem_singleton.mp h)
      exact hmessage _ _
    · cases h
  | messageUpdate data =>
    simp only [Event.refreshes] at h
    split_ifs at h
    · split at h
      · obtain ⟨rfl, -⟩ := Prod.mk.inj (List.mem_singleton.mp h)
        exact hmessage _ _
      · cases h
    · cases h
  | _ => cases h

theorem lastOf_storedPairs {kvs : List (String × Item)} (h : ∀ kv ∈ kvs, newKey kv.1 = kv.1) :
    lastOf (storedPairs J kvs) k = (lastOf kvs k).map J.text := by
  induction kvs with
  | nil => rfl
  | cons kv kvs ih =>
    have hcons : storedPairs J (kv :: kvs) = (newKey kv.1, J.text kv.2) :: storedPairs J kvs := rfl
    rw [hcons, lastOf_cons, lastOf_cons, ih fun kv' hkv' => h kv' (List.mem_cons_of_mem _ hkv'),
      h kv List.mem_cons_self]
    cases lastOf kvs k <;> by_cases hk : kv.1 = k <;> simp [hk]

/-- The returned old value costs no command. -/
theorem yields_oldValue (hJ : J.Lawful) (i : Item) :
    Fallible.Yields exec (oldValue J cfg i : Api T _) fun l r => l = [] ∧ ∃ old, r = .ok old := by
  obtain ⟨v, hv⟩ := hJ.value i
  unfold oldValue toValue
  rw [hv]
  cases cfg.stateOld with
  | true => exact Fallible.yields_pure ⟨rfl, some v, rfl⟩
  | false => exact Fallible.yields_pure ⟨rfl, none, rfl⟩

/-- An arm that reads its object first, and finds what is stored in `s`. -/
theorem yields_found {α β : Type} {decode : T → Except SimdJsonError α} {a : α}
    {f : Option α → Api T β} (hs : (s.strings k).map decode = some (.ok a))
    (hf : Fallible.Yields exec (f (some a)) fun l _ => Refreshing J k item d (l.map Prod.fst)) :
    Fallible.Yields exec (get decode k >>= f) fun l _ =>
      (∀ st l', l = (.get k, st) :: l' → st.strings k = s.strings k) →
        Refreshing J k item d (l.map Prod.fst) := by
  obtain ⟨t, ht, hdec⟩ := Option.map_eq_some_iff.mp hs
  refine Fallible.yields_bind ((yields_get decode k).mono ?_)
  rintro _ r ⟨st, rfl, hr⟩
  by_cases hst : st.strings k = s.strings k
  · rw [hst, ht] at hr
    simp only [hdec] at hr
    subst hr
    refine hf.mono fun l _ h _ => ?_
    rw [List.map_append]
    exact h.append _
  -- the read has found something else
  · cases r with
    | error err => exact fun h => absurd (h st [] rfl) hst
    | ok a' => exact fun l _ _ h => absurd (h st l rfl) hst

/-- An event that refreshes an entry issues the writes of the entry at its end, if what it reads first is
what is stored in `s`. -/
theorem yields_update (hJ : J.Lawful) {event : Event}
    (hrefresh : lastOf (event.refreshes J cfg botId s) k = some item)
    (hd : env.now.add (milliseconds (asI64 (ttlOf cfg k))) = some d) :
    Fallible.Yields exec (update J cfg botId env event) fun l _ =>
      (∀ st l', l = (.get k, st) :: l' → st.strings k = s.strings k) →
        Refreshing J k item d (l.map Prod.fst) := by
  have hlast : lastOf (storedPairs J (event.refreshes J cfg botId s)) k = some (J.text item) := by
    rw [lastOf_storedPairs fun kv hkv => newKey_eq_of_kind_ne (kindOf_of_refreshes hkv), hrefresh]
    rfl
  have hmem : (k, item) ∈ event.refreshes J cfg botId s := mem_of_lastOf hrefresh
  have hnew : newKey k = k := newKey_eq_of_kind_ne (kindOf_of_refreshes hmem)
  cases event with
  | memberAdd data =>
    simp only [Event.refreshes] at hmem
    split_ifs at hmem with hon
    · have hup : update J cfg botId env (.memberAdd data) = _ := if_pos hon
      obtain ⟨hk, rfl⟩ := Prod.mk.inj (List.mem_singleton.mp hmem)
      rw [hup, ← hk]
      rw [hk, ttlOf_memberKey] at hd
      exact (yields_setExpire hd hnew none).mono fun _ _ h _ => h
    · cases hmem
  | memberUpdate data =>
    simp only [Event.refreshes] at hmem
    split_ifs at hmem with hon
    · split at hmem
      · rename_i member hs
        have hup : update J cfg botId env (.memberUpdate data) = _ := if_pos hon
        obtain ⟨hk, rfl⟩ := Prod.mk.inj (List.mem_singleton.mp hmem)
        rw [hup, ← hk]
        rw [← hk] at hs
        rw [hk, ttlOf_memberKey] at hd
        refine yields_found hs ?_
        refine Fallible.yields_bind ((yields_oldValue hJ (.member member)).mono ?_)
        rintro _ _ ⟨rfl, old, rfl⟩
        exact yields_setExpire hd hnew old
      · cases hmem
    · cases hmem
  | memberChunk data =>
    simp only [Event.refreshes] at hlast hmem
    split_ifs at hlast hmem with hon
    · have hup : update J cfg botId env (.memberChunk data) = _ := if_pos hon
      rw [hup]
      obtain ⟨member, hmember, heq⟩ := List.mem_map.mp hmem
      have hk := (Prod.mk.inj heq).1
      have hkeys : k ∈ data.members.map fun member => memberKey data.guildId member.user.id :=
        List.mem_map.mpr ⟨member, hmember, hk⟩
      rw [← hk, ttlOf_memberKey] at hd
      have hbatch := yields_batch hd hlast (List.mem_map_of_mem hmem) hkeys none
      rw [List.map_map] at hbatch
      exact hbatch.mono fun _ _ h _ => h
    · cases hmem
  | guildCreate data =>
    simp only [Event.refreshes] at hlast hmem
    split_ifs at hlast hmem with hon
    · obtain ⟨member, hmember, heq⟩ := List.mem_map.mp hmem
      have hk := (Prod.mk.inj heq).1
      have hkeys : k ∈ data.members.map fun member => memberKey data.id member.user.id :=
        List.mem_map.mpr ⟨member, hmember, hk⟩
      have hall : (data.members.filter fun member => cfg.stateMember || member.user.id = botId) =
          data.members := List.filter_eq_self.mpr fun _ _ => by simp [hon]
      have hitems : lastOf (storedPairs J (guildItems cfg botId data)) k = some (J.text item) := by
        rw [← hk] at hlast ⊢
        exact (lastOf_guildItems_member hon data member.user.id).trans hlast
      have hkvs : k ∈ (guildItems cfg botId data).map Prod.fst := by
        have hin : (k, item) ∈ guildItems cfg botId data := by
          unfold guildItems
          rw [hall]
          exact List.mem_append_left _ (List.mem_append_left _ (List.mem_append_right _ hmem))
        exact List.mem_map_of_mem hin
      rw [← hk, ttlOf_memberKey] at hd
      have hup : update J cfg botId env (.guildCreate data) = (do
          let old ← clearGuild J.value env.orders data.id
          setAll J env.orders (guildItems cfg botId data)
          expireAll J env.now
            (data.members.map fun member => (memberKey data.id member.user.id, cfg.stateMemberTtl))
          return old) := by
        simp only [update, hon, if_true]
      rw [hup]
      refine Fallible.yields_bind ((yields_clearGuild J.value data.id).mono ?_)
      rintro l _ ⟨st, -, rfl⟩
      have hbatch := yields_batch hd hitems hkvs hkeys
        ((st.strings (guildKey data.id)).bind fun t => (J.value t).toOption)
      rw [List.map_map] at hbatch
      refine hbatch.mono fun l' _ h _ => ?_
      rw [List.map_append]
      exact h.append _
    · cases hmem
  | messageCreate data =>
    simp only [Event.refreshes] at hmem
    split_ifs at hmem with hon
    · have hup : update J cfg botId env (.messageCreate data) = _ := if_pos hon
      obtain ⟨hk, rfl⟩ := Prod.mk.inj (List.mem_singleton.mp hmem)
      rw [hup, ← hk]
      rw [hk, ttlOf_messageKey] at hd
      exact (yields_setExpire hd hnew none).mono fun _ _ h _ => h
    · cases hmem
  | messageUpdate data =>
    simp only [Event.refreshes] at hmem
    split_ifs at hmem with hon
    · split at hmem
      · rename_i message hs
        have hup : update J cfg botId env (.messageUpdate data) = _ := if_pos hon
        obtain ⟨hk, rfl⟩ := Prod.mk.inj (List.mem_singleton.mp hmem)
        rw [hup, ← hk]
        rw [← hk] at hs
        rw [hk, ttlOf_messageKey] at hd
        refine yields_found hs ?_
        refine Fallible.yields_bind ((yields_oldValue hJ (.message message)).mono ?_)
        rintro _ _ ⟨rfl, old, rfl⟩
        exact yields_setExpire hd hnew old
      · cases hmem
    · cases hmem
  | _ => cases hmem

/-! ## What a sweep deletes -/

/-- The cells that hold an entry: its value, its places in the indexes, its deadline. -/
def entries (k : String) : Set Cell :=
  {l | l = .str k ∨ (∃ S, (S, k) ∈ setMembers k ∧ l = .mem S k) ∨ l = .field EXPIRY_KEYS k}

theorem yields_delHashmap (key : String) (keys : List String) :
    Fallible.Yields exec (delHashmap key keys : Api T Unit) fun l r =>
      r = .ok () ∧ ∀ c ∈ l.map Prod.fst, c = .hdel key keys := by
  unfold delHashmap
  split_ifs
  · exact Fallible.yields_pure ⟨rfl, nofun⟩
  · refine (yields_redis _).mono ?_
    rintro _ _ ⟨st, rfl, rfl⟩
    exact ⟨rfl, fun c hc => List.mem_singleton.mp hc⟩

/-- A sweep writes nothing, and it deletes only what it has found expired. -/
theorem issues_sweep {l : List (Cmd T × Store T)} (h : Prog.Issues exec (sweep J env) l (.ret ())) :
    ∃ st, (.hgetall EXPIRY_KEYS, st) ∈ l ∧ ∀ c ∈ l.map Prod.fst, writes c = ∅ ∧
      (kindOf k ≠ CHANNEL_KEY → ∀ cell ∈ entries k, cell ∈ deletes c → k ∈ expired J env st) := by
  have hget : Fallible.Yields exec (getHashmap env.orders EXPIRY_KEYS : Api T _) fun l r =>
      ∃ st, l = [(.hgetall EXPIRY_KEYS, st)] ∧ (r.map (expiredKeys J env.now)) =
        .ok (expired J env st) := by
    refine Fallible.yields_bind ((yields_redis _).mono ?_)
    rintro _ _ ⟨st, rfl, rfl⟩
    exact Fallible.yields_pure ⟨st, rfl, rfl⟩
  unfold sweep at h
  obtain ⟨r, l₁, l₂, rfl, hr, hrest⟩ := h.bind
  obtain ⟨st, rfl, heq⟩ := hget _ _ hr
  refine ⟨st, List.mem_cons_self, ?_⟩
  cases r with
  | error err => cases heq
  | ok hashmap =>
    have hkeys : expiredKeys J env.now hashmap = expired J env st := Except.ok.inj heq
    simp only [hkeys] at hrest
    unfold deleteExpired at hrest
    obtain ⟨r, l₃, l₄, rfl, hdel, hrest⟩ := hrest.bind
    obtain ⟨rfl, hl₃⟩ := yields_delAll _ _ _ hdel
    obtain ⟨r, l₅, l₆, rfl, hhash, hret⟩ := Prog.Issues.bind hrest
    obtain ⟨-, hl₅⟩ := yields_delHashmap _ _ _ _ hhash
    cases hret
    have hown (hkind : kindOf k ≠ CHANNEL_KEY) (hk : k ∈ (expired J env st).map newKey) :
        k ∈ expired J env st := by
      obtain ⟨key, hkey, heq⟩ := List.mem_map.mp hk
      rw [← heq, kindOf_newKey] at hkind
      rwa [← heq, newKey_eq_of_kind_ne hkind]
    intro c hc
    rw [List.append_nil, List.map_append, List.map_append] at hc
    rcases List.mem_append.mp hc with hc | hc
    · obtain rfl := List.mem_singleton.mp hc
      exact ⟨rfl, fun _ cell _ hcell => nomatch hcell⟩
    rcases List.mem_append.mp hc with hc | hc
    · rcases hl₃ c hc with rfl | ⟨S, ms, rfl, hms⟩
      · refine ⟨rfl, ?_⟩
        rintro hkind cell hcell ⟨m, hm, rfl⟩
        rcases hcell with heq | ⟨_, _, heq⟩ | heq <;> cases heq
        exact hown hkind hm
      · refine ⟨rfl, ?_⟩
        rintro hkind cell hcell ⟨m, hm, rfl⟩
        rcases hcell with heq | ⟨_, _, heq⟩ | heq <;> cases heq
        exact hown hkind (hms k hm)
    · obtain rfl := hl₅ c hc
      refine ⟨rfl, ?_⟩
      rintro hkind cell hcell ⟨f, hf, rfl⟩
      rcases hcell with heq | ⟨_, _, heq⟩ | heq <;> cases heq
      exact hf

/-! ## An event and a sweep together -/

/-- The entry of `k` is as the event has written it. -/
structure Kept (J : Json T V) (k : String) (item : Item) (d : FormattedDateTime) (s : Store T) :
    Prop where
  stored : s.strings k = some (J.text item)
  listed : ∀ S, (S, k) ∈ setMembers k → k ∈ s.sets S
  dated : (s.hashes EXPIRY_KEYS).lookup k = some (J.text (.timestamp d))

/-- The sweep, which is task 1, deletes a part of the entry of `k` that the event, task 0, does not write
after that. -/
def Undone (k : String) (log : List (Entry (interface T) (Store T))) : Prop :=
  ∃ cell ∈ entries k, ∃ log₁ c st log₂, log = log₁ ++ ⟨1, c, st⟩ :: log₂ ∧ cell ∈ deletes c ∧
    ∀ e ∈ log₂, e.task = 0 → cell ∉ writes e.cmd

theorem Kept.filled {s' : Store T} (h : Kept J k item d s') {cell : Cell} (hcell : cell ∈ entries k) :
    Filled cell s' := by
  rcases hcell with rfl | ⟨S, hS, rfl⟩ | rfl
  · exact fun hnone => nomatch h.stored.symm.trans hnone
  · exact h.listed S hS
  · exact fun hnone => nomatch h.dated.symm.trans hnone

/-- The commands that read or change a cell. -/
abbrev Touching (cell : Cell) (c : Cmd T) : Prop := cell ∈ writes c ∪ deletes c

theorem Refreshing.settles_stored {cmds : List (Cmd T)} (h : Refreshing J k item d cmds) :
    Settles exec (fun s : Store T => s.strings k = some (J.text item)) (Touching (.str k)) cmds := by
  obtain ⟨before, adds, kvs, fields, rfl, hkvs, hadds, -, -⟩ := h
  refine ⟨before, _, _, rfl, ⟨.inl ⟨_, mem_of_lastOf hkvs, rfl⟩, fun s => ?_⟩, fun c hc htouch => ?_⟩
  · show (apply (.mset kvs) s).strings k = _
    rw [strings_mset, hkvs, Option.some_or]
  · rcases List.mem_append.mp hc with hc | hc
    · obtain ⟨S, ms, rfl⟩ := hadds c hc
      rcases htouch with ⟨_, _, heq⟩ | h
      · cases heq
      · cases h
    · obtain rfl := List.mem_singleton.mp hc
      rcases htouch with ⟨_, _, heq⟩ | h
      · cases heq
      · cases h

theorem Refreshing.settles_listed {cmds : List (Cmd T)} (h : Refreshing J k item d cmds) {S : String}
    (hS : (S, k) ∈ setMembers k) :
    Settles exec (fun s : Store T => k ∈ s.sets S) (Touching (.mem S k)) cmds := by
  obtain ⟨before, adds, kvs, fields, rfl, -, hadds, hcover, -⟩ := h
  obtain ⟨ms, hms, hk⟩ := hcover S hS
  obtain ⟨adds₁, adds₂, rfl⟩ := List.append_of_mem hms
  refine ⟨before ++ .mset kvs :: adds₁, .sadd S ms, adds₂ ++ [.hset EXPIRY_KEYS fields], by simp,
    ⟨.inl ⟨k, hk, rfl⟩, fun s => ?_⟩, fun c hc htouch => ?_⟩
  · exact mem_sets_sadd.mpr (.inr ⟨rfl, hk⟩)
  · rcases List.mem_append.mp hc with hc | hc
    · obtain ⟨S', ms', rfl⟩ := hadds c (List.mem_append_right _ (List.mem_cons_of_mem _ hc))
      refine ⟨htouch, fun s => ?_⟩
      rcases htouch with ⟨m, hm, heq⟩ | h
      · cases heq
        exact mem_sets_sadd.mpr (.inr ⟨rfl, hm⟩)
      · cases h
    · obtain rfl := List.mem_singleton.mp hc
      rcases htouch with ⟨_, _, heq⟩ | h
      · cases heq
      · cases h

theorem Refreshing.settles_dated {cmds : List (Cmd T)} (h : Refreshing J k item d cmds) :
    Settles exec
      (fun s : Store T => (s.hashes EXPIRY_KEYS).lookup k = some (J.text (.timestamp d)))
      (Touching (.field EXPIRY_KEYS k)) cmds := by
  obtain ⟨before, adds, kvs, fields, rfl, -, -, -, hfields⟩ := h
  refine ⟨before ++ .mset kvs :: adds, .hset EXPIRY_KEYS fields, [], by simp,
    ⟨.inl ⟨_, mem_of_lastOf hfields, rfl⟩, fun s => ?_⟩, nofun⟩
  show ((apply (.hset EXPIRY_KEYS fields) s).hashes EXPIRY_KEYS).lookup k = _
  rw [lookup_hset, if_pos rfl, hfields, Option.some_or]

/-- The value of `k` is that in `s`, or it is gone. -/
def Remains (k : String) (s st : Store T) : Prop := st.strings k = s.strings k ∨ st.strings k = none

section Together

variable {s' : Store T} {env' : Env} {event : Event} {log : List (Entry (interface T) (Store T))}
  {as : List Unit}
  (h : Logged exec [Step.prog J cfg botId ⟨env, .event event⟩, Step.prog J cfg botId ⟨env', .sweep⟩]
    s log as s')

include h

/-- The sweep has read the deadlines once, and deletes only what was expired then. -/
theorem sweep_entries : ∃ st, ⟨1, .hgetall EXPIRY_KEYS, st⟩ ∈ log ∧ ∀ c st', ⟨1, c, st'⟩ ∈ log →
    writes c = ∅ ∧
      (kindOf k ≠ CHANNEL_KEY → ∀ cell ∈ entries k, cell ∈ deletes c → k ∈ expired J env' st) := by
  obtain ⟨_, -, hissues⟩ := h.issues (List.getElem?_cons_succ.trans List.getElem?_cons_zero)
  obtain ⟨st, hst, hl⟩ := issues_sweep hissues
  exact ⟨st, mem_own.mp hst, fun c st' hc =>
    hl c (List.mem_map.mpr ⟨(c, st'), mem_own.mpr hc, rfl⟩)⟩

theorem task_cases {e : Entry (interface T) (Store T)} (he : e ∈ log) : e.task = 0 ∨ e.task = 1 := by
  have hlt : e.task < 2 := h.task_lt he
  omega

/-- What the event reads first is what is stored before, if it finds anything. -/
theorem strings_first {st : Store T} {l : List (Cmd T × Store T)}
    (hown : own 0 log = (.get k, st) :: l) (hfound : st.Has k) : st.strings k = s.strings k := by
  have hsplit : own 0 log = [] ++ (.get k, st) :: l := hown
  obtain ⟨log₁, log₂, hlog, hlog₁, -⟩ := own_eq_append hsplit
  obtain ⟨_, -, hsweep⟩ := sweep_entries (k := k) h
  have hstate : st = after exec (log₁.map Entry.cmd) s := h.state hlog
  have hInv : Remains k s st := by
    rw [hstate]
    refine after_keeps (fun c hc st' hst' => ?_) (.inl rfl)
    obtain ⟨⟨i, c, st''⟩, he, rfl⟩ := List.mem_map.mp hc
    have hmem : ⟨i, c, st''⟩ ∈ log := by
      rw [hlog]
      exact List.mem_append_left _ he
    have hi : i = 1 := by
      rcases task_cases h hmem with h0 | h1
      · obtain rfl : i = 0 := h0
        have hmem := mem_own.mpr he
        rw [hlog₁] at hmem
        cases hmem
      · exact h1
    subst hi
    have hwrites := (hsweep c st'' hmem).1
    by_cases hdel : Cell.str k ∈ deletes c
    · right
      by_contra hne
      exact not_filled_of_deletes hdel st' hne
    · have hsame : st'.strings k = (apply c st').strings k :=
        sameAt_of_untouched (fun hl => hl.elim (by rw [hwrites]; exact id) hdel) st'
      unfold Remains at hst' ⊢
      rw [hsame] at hst'
      exact hst'
  exact hInv.resolve_right hfound

/-- What holds of a cell of the entry once the event is through with it holds in the end, unless the sweep
undoes it. -/
theorem settled_entry {Inv : Store T → Prop} {cell : Cell} (hcell : cell ∈ entries k)
    (hInv : ∀ st st', SameAt cell st st' → Inv st → Inv st')
    (hsettles : Settles exec Inv (Touching cell) ((own 0 log).map Prod.fst)) (hkept : ¬ Undone k log) :
    Inv s' := by
  obtain ⟨_, -, hsweep⟩ := sweep_entries (k := k) h
  refine h.settled (fun c st hc => hInv _ _ (sameAt_of_untouched hc st)) hsettles ?_
  rintro log₁ ⟨i, c, st⟩ log₂ hlog hi htouch
  have hmem : ⟨i, c, st⟩ ∈ log := by
    rw [hlog]
    exact List.mem_append_right _ List.mem_cons_self
  obtain rfl : i = 1 := (task_cases h hmem).resolve_left hi
  have hdel : cell ∈ deletes c := by
    rcases htouch with hw | hd
    · rw [(hsweep c st hmem).1] at hw
      cases hw
    · exact hd
  by_contra hnone
  exact hkept ⟨cell, hcell, log₁, c, st, log₂, hlog, hdel,
    fun e he h0 hw => hnone ⟨e, he, h0, .inl hw⟩⟩

end Together

/-- A refresh and a sweep that runs at the same time: the entry ends up as the event has written it if and
only if the event writes every part of it after the sweep has deleted that part. This is so when the
deadline the sweep has read is not past. -/
theorem refresh_kept {J : Json T V} (hJ : J.Lawful) (cfg : Config) (botId : Id .user) {env env' : Env}
    {event : Event} {s s' : Store T} {k : String} {item : Item} {d : FormattedDateTime}
    {log : List (Entry (interface T) (Store T))} {as : List Unit}
    (hrefresh : lastOf (event.refreshes J cfg botId s) k = some item)
    (hd : env.now.add (milliseconds (asI64 (ttlOf cfg k))) = some d)
    (h : Logged exec
      [Step.prog J cfg botId ⟨env, .event event⟩, Step.prog J cfg botId ⟨env', .sweep⟩] s log as s')
    (hfound : ∀ st, ⟨0, .get k, st⟩ ∈ log → st.Has k) :
    (Kept J k item d s' ↔ ¬ Undone k log) ∧
      ((∀ st, ⟨1, .hgetall EXPIRY_KEYS, st⟩ ∈ log → k ∉ expired J env' st) → ¬ Undone k log) := by
  have hkind : kindOf k ≠ CHANNEL_KEY := kindOf_of_refreshes (mem_of_lastOf hrefresh)
  obtain ⟨st, hst, hsweep⟩ := sweep_entries (k := k) h
  have hevent : Refreshing J k item d ((own 0 log).map Prod.fst) := by
    obtain ⟨_, -, hissues⟩ := h.issues List.getElem?_cons_zero
    obtain ⟨r, l₁, l₂, hown, hupdate, hret⟩ := Prog.Issues.bind hissues
    cases hret
    rw [List.append_nil] at hown
    rw [hown]
    refine yields_update hJ hrefresh hd _ _ hupdate fun st l hl => ?_
    have hget : (.get k, st) ∈ own 0 log := by
      rw [hown, hl]
      exact List.mem_cons_self
    exact strings_first h (hown.trans hl) (hfound st (mem_own.mp hget))
  refine ⟨⟨?_, fun hkept => ⟨?_, fun S hS => ?_, ?_⟩⟩, ?_⟩
  · rintro hkept ⟨cell, hcell, log₁, c, st', log₂, hlog, hdel, hlater⟩
    have hfinal : ¬ Filled cell s' := by
      rw [h.final, hlog, List.map_append, List.map_cons, after_append, after_cons]
      have hkeeps : ∀ c ∈ log₂.map Entry.cmd, ∀ st : Store T, ¬ Filled cell st →
          ¬ Filled cell (exec c st).2 := by
        intro c hc st hst
        obtain ⟨⟨i, c, st₀⟩, he, rfl⟩ := List.mem_map.mp hc
        have hmem : ⟨i, c, st₀⟩ ∈ log := by
          rw [hlog]
          exact List.mem_append_right _ (List.mem_cons_of_mem _ he)
        refine not_filled_apply ?_ hst
        rcases task_cases h hmem with h0 | h1
        · exact hlater _ he h0
        · obtain rfl : i = 1 := h1
          rw [(hsweep c st₀ hmem).1]
          exact id
      exact after_keeps hkeeps (not_filled_of_deletes hdel _)
    exact hfinal (hkept.filled hcell)
  · exact settled_entry h (.inl rfl) (fun _ _ hsame hst => hsame.symm.trans hst)
      hevent.settles_stored hkept
  · exact settled_entry h (.inr (.inl ⟨S, hS, rfl⟩)) (fun _ _ hsame hst => hsame.mp hst)
      (hevent.settles_listed hS) hkept
  · exact settled_entry h (.inr (.inr rfl)) (fun _ _ hsame hst => hsame.symm.trans hst)
      hevent.settles_dated hkept
  · rintro hexpired ⟨cell, hcell, log₁, c, st', log₂, hlog, hdel, -⟩
    have hmem : ⟨1, c, st'⟩ ∈ log := by
      rw [hlog]
      exact List.mem_append_right _ List.mem_cons_self
    exact hexpired st hst ((hsweep c st' hmem).2 hkind cell hcell hdel)

/-! ## An edit after the deadline -/

/-- The cache after a message has been created at the epoch. -/
def messageCached : Store Item :=
  stateAfter Json.plain .full (.of 9) [⟨.at (.of 0), .event (.messageCreate
    ⟨.of 2, .of 1, [], "", none, [], false, [], [], false, 0, false, ""⟩)⟩]

/-- Two seconds later the message is edited. -/
def edit : Event :=
  .messageUpdate ⟨.of 2, .of 1, none, some "edited", none, none, none, none, none, none, none, none⟩

def editedMessage : Message := ⟨.of 2, .of 1, [], "edited", none, [], false, [], [], false, 0, false, ""⟩

/-- The edit, and a sweep at the same time. -/
def editAndSweep : List (Prog (interface Item) Unit) :=
  [Step.prog Json.plain .full (.of 9) ⟨.at (.of 2000000000), .event edit⟩,
    Step.prog Json.plain .full (.of 9) ⟨.at (.of 2000000000), .sweep⟩]

theorem edit_refreshes : lastOf (edit.refreshes Json.plain .full (.of 9) messageCached)
    (messageKey (.of 1) (.of 2)) = some (.message editedMessage) := by
  have hany : (lastOf (edit.refreshes Json.plain .full (.of 9) messageCached)
      (messageKey (.of 1) (.of 2))).any (fun item =>
        decide ((Json.plain.message item).toOption = some editedMessage)) = true := by
    decide +kernel
  obtain ⟨item, hitem, hmessage⟩ := (Option.any_eq_true _ _).mp hany
  rw [hitem]
  cases item with
  | message message => rw [Option.some.inj (of_decide_eq_true hmessage)]
  | _ => cases of_decide_eq_true hmessage

/-- The edit gives it a deadline a second later. -/
theorem edit_deadline : (FormattedDateTime.of 2000000000).add
    (milliseconds (asI64 (ttlOf .full (messageKey (.of 1) (.of 2))))) = some (.of 3000000000) := by
  rw [ttlOf_messageKey]
  decide

/-- The edit finds the message. -/
def findsMessage (log : List (Entry (interface Item) (Store Item))) : Bool :=
  log.all fun e => match e.task, e.cmd with
    | 0, .get key => (e.state.strings key).isSome
    | _, _ => true

theorem has_of_findsMessage {log : List (Entry (interface Item) (Store Item))}
    (h : findsMessage log = true) : ∀ st, ⟨0, .get k, st⟩ ∈ log → st.Has k :=
  fun _ hst => Option.isSome_iff_ne_none.mp (List.all_eq_true.mp h _ hst)

/-- The edit is kept, if the sweep reads the deadlines when it is through. -/
theorem refresh_kept_before : ∃ log as s', Logged exec editAndSweep messageCached log as s' ∧
    Kept Json.plain (messageKey (.of 1) (.of 2)) (.message editedMessage) (.of 3000000000) s' := by
  have hfollow : (follow exec [0, 0, 0, 0, 0, 1] editAndSweep messageCached).any (fun r =>
      findsMessage r.1 && r.1.all fun e => match e.task, e.cmd with
        | 1, .hgetall _ => !(expired Json.plain (.at (.of 2000000000)) e.state).contains
            (messageKey (.of 1) (.of 2))
        | _, _ => true) = true := by
    decide +kernel
  obtain ⟨r, hr, hlog⟩ := (Option.any_eq_true _ _).mp hfollow
  obtain ⟨hfinds, hsweep⟩ := Bool.and_eq_true_iff.mp hlog
  obtain ⟨as, h⟩ := logged_of_follow hr
  have hkept := refresh_kept Json.plain_lawful .full (.of 9) edit_refreshes edit_deadline h
    (has_of_findsMessage hfinds)
  refine ⟨r.1, as, r.2, h, hkept.1.mpr (hkept.2 fun st hst hmem => ?_)⟩
  have hnot := List.all_eq_true.mp hsweep _ hst
  simp only [Bool.not_eq_true', List.contains_eq_mem, decide_eq_false_iff_not] at hnot
  exact hnot hmem

/-- The edit is undone, if the sweep reads the deadlines before it and deletes after it. -/
theorem refresh_undone : ∃ log as s', Logged exec editAndSweep messageCached log as s' ∧
    lastOf (edit.refreshes Json.plain .full (.of 9) messageCached) (messageKey (.of 1) (.of 2)) =
      some (.message editedMessage) ∧
    (∀ st, ⟨0, .get (messageKey (.of 1) (.of 2)), st⟩ ∈ log → st.Has (messageKey (.of 1) (.of 2))) ∧
    ¬ Kept Json.plain (messageKey (.of 1) (.of 2)) (.message editedMessage) (.of 3000000000) s' := by
  have hfollow : (follow exec [1, 0, 0, 0, 0, 0, 1, 1, 1, 1] editAndSweep messageCached).any (fun r =>
      findsMessage r.1 && (r.2.strings (messageKey (.of 1) (.of 2))).isNone) = true := by
    decide +kernel
  obtain ⟨r, hr, hlog⟩ := (Option.any_eq_true _ _).mp hfollow
  obtain ⟨hfinds, hgone⟩ := Bool.and_eq_true_iff.mp hlog
  obtain ⟨as, h⟩ := logged_of_follow hr
  refine ⟨r.1, as, r.2, h, edit_refreshes, has_of_findsMessage hfinds, fun hkept => ?_⟩
  rw [hkept.stored] at hgone
  cases hgone

end TwilightDispatch
