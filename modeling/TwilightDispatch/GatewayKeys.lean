import TwilightDispatch.ProcessRule

/-!
# The keys of a process

The keys that a process keeps about itself are written by `real_main` and `run_jobs` only: the updates
of the cache and the sweep leave them alone, because no index and no deadline ever names one of them
(`update_quiet`, `sweep_quiet`). So in every world the stored number of shards is that of the process
that wrote it, and the stored sessions are a map that some process dumped or saved (`Intact`).
-/

namespace TwilightDispatch

open Atomic Redis

variable {T V : Type} {J : Json T V} {P : PayloadJson V} {cfg : Config} {botId : Id .user} {env : Env}
  {s : Store T} {key : String}

/-! ## The cache leaves them alone -/

/-- The cells other than the keys of a process. -/
def quiet : Set Cell := {l | ∀ key ∈ gatewayKeys, l ≠ .str key}

/-- No index and no deadline names a key of a process. -/
def NoGateway (s : Store T) : Prop :=
  ∀ key ∈ gatewayKeys, (∀ S, key ∉ s.sets S) ∧ (s.hashes EXPIRY_KEYS).lookup key = none

theorem NoGateway.empty : NoGateway (Store.empty : Store T) :=
  fun key _ => ⟨fun _ => Finset.notMem_empty key, rfl⟩

theorem NoGateway.shrinks : Shrinks (NoGateway : Store T → Prop) where
  del _ _ h := h
  srem S ms s h key hk := ⟨fun S' hm => (h key hk).1 S' (mem_sets_srem.mp hm).1, (h key hk).2⟩
  hdel name fields s h key hk := by
    refine ⟨(h key hk).1, ?_⟩
    rw [lookup_hdel, (h key hk).2, ite_self]

theorem Entity.key_notMem_gateway (e : Entity) : e.key ∉ gatewayKeys := by
  intro h
  have hkind : kindOf e.key = e.key := by
    rw [kindOf, split_eq_singleton (colon_notMem_of_gateway h)]
    rfl
  rw [kindOf_key] at hkind
  rw [← hkind] at h
  cases e <;> simp [Entity.kind, gatewayKeys, STARTED_KEY, SHARDS_KEY, STATUSES_KEY, SESSIONS_KEY,
    BOT_USER_KEY, GUILD_KEY, CHANNEL_KEY, MESSAGE_KEY, ROLE_KEY, EMOJI_KEY, MEMBER_KEY, PRESENCE_KEY,
    VOICE_KEY] at h

/-- Rewriting a key does not make it one of a process. -/
theorem mem_gateway_of_newKey (h : newKey key ∈ gatewayKeys) : key ∈ gatewayKeys := by
  unfold newKey at h
  simp only at h
  split_ifs at h with hk
  · exact absurd (by simp) (colon_notMem_of_gateway h)
  · exact h

theorem Entity.stored_notMem_gateway (e : Entity) : e.stored ∉ gatewayKeys :=
  fun h => e.key_notMem_gateway (mem_gateway_of_newKey (by rwa [newKey_key]))

/-- What an event works on, as far as the keys of a process are concerned. -/
def quietScope : Scope where
  entity _ := True
  index _ := True
  listed _ key := key ∉ gatewayKeys

theorem str_mem_quiet (h : key ∉ gatewayKeys) : .str key ∈ quiet := by
  rintro key' hk' he
  obtain rfl := Cell.str.inj he
  exact h hk'

theorem mem_mem_quiet (S k : String) : .mem S k ∈ quiet := fun _ _ => nofun

theorem field_mem_quiet (h f : String) : .field h f ∈ quiet := fun _ _ => nofun

theorem confines_setAll_quiet {kvs : List (String × Item)} {orders : Orders} {ok : Entity → Prop}
    (hkvs : ∀ kv ∈ kvs, Writes ok kv) :
    Confines exec (cells T) NoGateway quiet (setAll J orders kvs) fun _ => True := by
  have hstored : ∀ kv ∈ kvs, newKey kv.1 ∉ gatewayKeys := by
    intro kv hkv
    obtain ⟨e, -, hkey, -⟩ := hkvs kv hkv
    rw [← hkey, newKey_key]
    exact e.stored_notMem_gateway
  refine confines_setAll (fun kv hkv => str_mem_quiet (hstored kv hkv))
    (fun _ _ S k _ => mem_mem_quiet S k) (fun _ hs => hs) fun S ms s hms hs key hk => ?_
  refine ⟨fun S' hm => ?_, (hs key hk).2⟩
  rcases mem_sets_sadd.mp hm with hm | ⟨-, hm⟩
  · exact (hs key hk).1 S' hm
  · obtain ⟨kv, hkv, hset⟩ := hms key hm
    exact hstored kv hkv (eq_newKey_of_mem_setMembers hset ▸ hk)

theorem str_mem_quiet_of_reads {key : String} (h : quietScope.Reads key) : .str key ∈ quiet := by
  rcases h with ⟨e, -, rfl⟩ | ⟨g, -, hlisted⟩
  · exact str_mem_quiet e.key_notMem_gateway
  · exact str_mem_quiet hlisted

theorem closed_quiet :
    Closed (fun x Q => Confines exec (cells T) NoGateway quiet x Q) J cfg env quietScope where
  toLogic := Confines.logic _ _ _ _
  get key hkey := by
    refine confines_redis ?_ (fun _ hs => hs) fun _ _ => trivial
    rintro l rfl
    exact str_mem_quiet_of_reads hkey
  mget keys hkeys := by
    refine confines_redis ?_ (fun _ hs => hs) fun _ _ => trivial
    rintro l ⟨key, hkey, rfl⟩
    exact str_mem_quiet_of_reads (hkeys key hkey)
  members g _ := by
    refine (Confines.logic _ _ _ _).bind (Q := fun keys => ∀ key ∈ keys, key ∉ gatewayKeys)
      (confines_redis ?_ (fun _ hs => hs) fun s hs key hkey hk => (hs key hk).1 _ hkey)
      fun keys hkeys => (Confines.logic _ _ _ _).pure fun key hkey =>
        hkeys key ((env.orders.mem_listing _ _).mp hkey)
    rintro l ⟨k, rfl⟩
    exact mem_mem_quiet _ k
  set kvs hkvs := confines_setAll_quiet fun kv hkv => (hkvs kv hkv).1
  setExpire kvs exps hkvs hexps := by
    refine (Confines.logic _ _ _ _).andThen (confines_setAll_quiet hkvs) fun _ =>
      confines_expireAll (fun _ _ => field_mem_quiet _ _) fun fields s hfields hs key hk => ?_
    refine ⟨(hs key hk).1, ?_⟩
    have hnot : key ∉ fields.map Prod.fst := by
      intro hmem
      obtain ⟨field, hf, rfl⟩ := List.mem_map.mp hmem
      obtain ⟨x, hx, hname⟩ := hfields field hf
      obtain ⟨kv, hkv, hkey⟩ := List.mem_map.mp (hexps.written x hx)
      obtain ⟨e, -, he, -⟩ := hkvs kv hkv
      exact e.key_notMem_gateway (by rwa [he, hkey, ← hname])
    rw [lookup_hset, lastOf_eq_none_iff.mpr hnot, (hs key hk).2]
    exact ite_self _
  del keys hkeys := by
    refine confines_delAll NoGateway.shrinks (fun key hkey => ?_) fun _ _ S k _ => mem_mem_quiet S k
    obtain ⟨e, -, rfl⟩ := hkeys key hkey
    exact str_mem_quiet (newKey_key e ▸ e.stored_notMem_gateway)

theorem update_quiet (event : Event) : Confined exec (cells T) NoGateway quiet
    (ExceptT.run (update J cfg botId env event)) := by
  have hadmits : Scope.Admits cfg botId quietScope event := ⟨fun _ _ _ => trivial, fun _ _ => trivial⟩
  refine (closed_quiet.update_of_drop hadmits fun g _ keys hkeys => ?_).confined
  exact confines_delAll NoGateway.shrinks (fun key hkey => str_mem_quiet fun h =>
    hkeys key hkey (mem_gateway_of_newKey h)) fun _ _ S k _ => mem_mem_quiet S k

theorem sweep_quiet : Confined exec (cells T) NoGateway quiet (sweep J env) :=
  sweep_confined NoGateway.shrinks (field_mem_quiet _) fun _ hs f hf =>
    ⟨str_mem_quiet fun h => hf (hs f (mem_gateway_of_newKey h)).2, fun S k _ => mem_mem_quiet S k⟩

/-! ## What is left of the programs -/

/-- What is left to do for the events of a stream leaves the keys of the process alone. -/
def Outgoing.Quiet (J : Json T V) (P : PayloadJson V) (cfg : Config) (botId : Id .user)
    (o : Outgoing T V) : Prop :=
  ∀ p ∈ o.pool J P cfg botId, Confined exec (cells T) NoGateway quiet p

theorem Outgoing.Quiet.start : Outgoing.Quiet J P cfg botId (.start [] : Outgoing T V) :=
  Outgoing.Bounded.start

theorem Outgoing.Quiet.receive {o : Outgoing T V} (h : o.Quiet J P cfg botId) (item : Received) :
    Outgoing.Quiet J P cfg botId { o with events := o.events ++ [item] } :=
  Outgoing.Bounded.receive h (update_quiet item.event)

theorem Outgoing.Quiet.silent {o o' : Outgoing T V} {s' : Store T} (h : o.Quiet J P cfg botId)
    (hm : Outgoing.Moves J P cfg botId o s none o' s') : o'.Quiet J P cfg botId :=
  Outgoing.Bounded.silent h hm

/-- A command of a quiet call leaves the keys of the process alone. -/
theorem Outgoing.Quiet.command {o o' : Outgoing T V} {s' : Store T} {i : ℕ} {c : Cmd T}
    (h : o.Quiet J P cfg botId) (hm : Outgoing.Moves J P cfg botId o s (some (i, c)) o' s')
    (hs : NoGateway s) : Local exec (cells T) quiet c ∧ NoGateway (apply c s) ∧
      o'.Quiet J P cfg botId := Outgoing.Bounded.command h hm hs

/-- What can be left of a round of `run_jobs` that dumps good sessions. -/
inductive JobShape (J : Json T V) (good : Sessions → Prop) : Prog (interface T) Unit → Prop
  | statuses {t : T} {sessions : Sessions} {env : Env} (h : good sessions) :
      JobShape J good (.cmd (.mset [(STATUSES_KEY, t)]) fun _ =>
        .cmd (.mset [(SESSIONS_KEY, J.text (.sessions sessions))]) fun _ => sweep J env)
  | sessions {sessions : Sessions} {env : Env} (h : good sessions) :
      JobShape J good (.cmd (.mset [(SESSIONS_KEY, J.text (.sessions sessions))]) fun _ =>
        sweep J env)
  | sweeping {p : Prog (interface T) Unit} (h : Confined exec (cells T) NoGateway quiet p) :
      JobShape J good p

theorem JobShape.mono {good good' : Sessions → Prop} {p : Prog (interface T) Unit}
    (h : JobShape J good p) (hgood : ∀ sessions, good sessions → good' sessions) :
    JobShape J good' p := by
  cases h with
  | statuses h => exact .statuses (hgood _ h)
  | sessions h => exact .sessions (hgood _ h)
  | sweeping h => exact .sweeping h

/-- What can be left of `real_main`, in a store in which it is the only task as long as it
connects. -/
def Main.Shape (J : Json T V) (good : Sessions → Prop) (settings : Settings) (s : Store T) :
    Main T → Prop
  | .connecting prog => (∀ c ∈ prog.trace exec s, IsRead c) ∧
      ∀ r, (prog.run exec s).1 = .ok r → Granted J settings s r
  | .announcing _ prog => (∃ env, prog = ExceptT.run (announce J settings env)) ∨
      (∃ orders, prog = ExceptT.run (set J orders SHARDS_KEY (.shardsTotal settings.shardsTotal))) ∨
      prog = .ret (.ok ())
  | .running => True
  | .stopping resumable prog => good (savedSessions resumable) ∧
      ((∃ orders, prog = ExceptT.run (saveSessions J orders resumable)) ∨ prog = .ret (.ok ()))

/-! ## The invariant -/

section Intact

variable (J : Json T V) (P : PayloadJson V) (good : List (UInt64 × String) → Sessions → Prop)

/-- A running process, in a store and after the sessions established so far. -/
structure Process.Intact (established : List (UInt64 × String)) (s : Store T) (p : Process T V) :
    Prop where
  main : p.main.Shape J (good established) p.settings s
  jobs : JobShape J (good established) p.jobs
  calls : ∀ o ∈ p.calls, o.Quiet J P p.settings.state p.settings.botId
  alone : p.main.up = false → p.jobs = .ret () ∧ p.calls = []
  shards : ∀ entry ∈ p.shards, ∀ id, entry.2.sessionId = some id →
    id ≠ "" ∧ (entry.1, id) ∈ established

/-- The keys of the processes hold what processes write there: the stored number of shards is that of
the process that wrote it, and stored sessions are good. -/
structure World.Intact (w : World T V) : Prop where
  noGateway : NoGateway w.store
  shards : w.store.strings SHARDS_KEY =
    (w.writer SHARDS_KEY).map fun settings => J.text (.shardsTotal settings.shardsTotal)
  sessions : ∀ t, w.store.strings SESSIONS_KEY = some t → w.writer SESSIONS_KEY ≠ none ∧
    ∃ sessions, t = J.text (.sessions sessions) ∧ good w.established sessions
  process : ∀ p, w.process = some p → p.Intact J P good w.established w.store

variable {J P good}

theorem World.Intact.init : World.Intact J P good (.init : World T V) where
  noGateway := .empty
  shards := rfl
  sessions _ h := nomatch h
  process _ h := nomatch h

/-- What a command for another key leaves as it is. -/
theorem Local.strings_quiet {c : Cmd T} (h : Local exec (cells T) quiet c) (hkey : key ∈ gatewayKeys)
    (s : Store T) : (apply c s).strings key = s.strings key :=
  (h.frame s (.str key) fun hq => hq key hkey rfl).symm

theorem Local.writtenKeys_quiet {c : Cmd T} (h : Local exec (cells T) quiet c)
    (hkey : key ∈ gatewayKeys) : key ∉ writtenKeys c := by
  intro hmem
  cases c with
  | mset items =>
    obtain ⟨t, ht⟩ := exists_lastOf hmem
    have hs := Local.strings_quiet h hkey Store.empty
    rw [strings_mset, ht] at hs
    cases hs
  | _ => cases hmem

variable {w : World T V} {p p' : Process T V} {c : Cmd T}

/-- A process that goes on without touching Redis. -/
theorem World.Intact.process_eq (h : w.Intact J P good)
    (hp : p'.Intact J P good w.established w.store) :
    World.Intact J P good { w with process := some p' } where
  noGateway := h.noGateway
  shards := h.shards
  sessions := h.sessions
  process _ hq := Option.some.inj hq ▸ hp

/-- A command of the cache. -/
theorem World.Intact.execute_quiet (h : w.Intact J P good) (hc : Local exec (cells T) quiet c)
    (hn : NoGateway (apply c w.store)) (hp : p'.Intact J P good w.established (apply c w.store)) :
    (w.execute c p').Intact J P good := by
  have hkey : ∀ key ∈ gatewayKeys, (apply c w.store).strings key = w.store.strings key ∧
      w.record p'.settings c key = w.writer key := by
    refine fun key hk => ⟨Local.strings_quiet hc hk w.store, ?_⟩
    exact if_neg (Local.writtenKeys_quiet hc hk)
  have hshards := hkey SHARDS_KEY (by simp [gatewayKeys])
  have hsessions := hkey SESSIONS_KEY (by simp [gatewayKeys])
  refine ⟨hn, ?_, fun t ht => ?_, fun q hq => Option.some.inj hq ▸ hp⟩
  · change (apply c w.store).strings SHARDS_KEY = (w.record p'.settings c SHARDS_KEY).map _
    rw [hshards.1, hshards.2, h.shards]
  · change (apply c w.store).strings SESSIONS_KEY = some t at ht
    change w.record p'.settings c SESSIONS_KEY ≠ none ∧ _
    rw [hsessions.1] at ht
    rw [hsessions.2]
    exact h.sessions t ht

/-- A process sets one of its keys. -/
theorem World.Intact.execute_set {t : T} (h : w.Intact J P good)
    (hshards : key = SHARDS_KEY → t = J.text (.shardsTotal p'.settings.shardsTotal))
    (hsessions : key = SESSIONS_KEY → ∃ sessions, t = J.text (.sessions sessions) ∧
      good w.established sessions)
    (hp : p'.Intact J P good w.established (apply (.mset [(key, t)]) w.store)) :
    (w.execute (.mset [(key, t)]) p').Intact J P good := by
  refine ⟨h.noGateway, ?_, fun t' ht' => ?_, fun q hq => Option.some.inj hq ▸ hp⟩
  · change (apply (.mset [(key, t)]) w.store).strings SHARDS_KEY =
      (w.record p'.settings (.mset [(key, t)]) SHARDS_KEY).map _
    by_cases hk : key = SHARDS_KEY
    · simp [World.record, writtenKeys, hk, hshards hk]
    · simp [World.record, writtenKeys, hk, Ne.symm hk, h.shards]
  · change (apply (.mset [(key, t)]) w.store).strings SESSIONS_KEY = some t' at ht'
    change w.record p'.settings (.mset [(key, t)]) SESSIONS_KEY ≠ none ∧
      ∃ sessions, t' = J.text (.sessions sessions) ∧ good w.established sessions
    by_cases hk : key = SESSIONS_KEY
    · have htt : t = t' := by simpa [hk] using ht'
      exact ⟨by simp [World.record, writtenKeys, hk], htt ▸ hsessions hk⟩
    · have := h.sessions t' (by simpa [hk] using ht')
      simpa [World.record, writtenKeys, Ne.symm hk] using this

/-- A command that only reads. -/
theorem World.execute_read (w : World T V) (p : Process T V) (hc : IsRead c) :
    w.execute c p = { w with process := some p } := by
  cases c with
  | mset | del | sadd | srem | hset | hdel => exact hc.elim
  | _ => rfl

/-! ## What one step preserves -/

theorem Main.Shape.of_up {good : Sessions → Prop} {settings : Settings} {s' : Store T} {m : Main T}
    (h : m.Shape J good settings s) (hup : m.up = true) : m.Shape J good settings s' := by
  cases m with
  | connecting => cases hup
  | announcing => cases hup
  | running => trivial
  | stopping => exact h

theorem Main.Shape.mono {good good' : Sessions → Prop} {settings : Settings} {m : Main T}
    (h : m.Shape J good settings s) (hgood : ∀ sessions, good sessions → good' sessions) :
    m.Shape J good' settings s := by
  cases m with
  | stopping => exact ⟨hgood _ h.1, h.2⟩
  | _ => exact h

/-- A process that keeps its shards and its calls. -/
theorem Process.Intact.with_main {established : List (UInt64 × String)} {s' : Store T} {m : Main T}
    (h : p.Intact J P good established s) (hm : m.Shape J (good established) p.settings s')
    (halone : m.up = false → p.main.up = false) :
    Process.Intact J P good established s' { p with main := m } where
  main := hm
  jobs := h.jobs
  calls := h.calls
  alone hup := h.alone (halone hup)
  shards := h.shards

/-- A process that is up does not depend on the store. -/
theorem Process.Intact.with_jobs {established : List (UInt64 × String)} {s' : Store T}
    {jobs : Prog (interface T) Unit} (h : p.Intact J P good established s)
    (hup : p.main.up = true) (hj : JobShape J (good established) jobs) :
    Process.Intact J P good established s' { p with jobs := jobs } where
  main := h.main.of_up hup
  jobs := hj
  calls := h.calls
  alone hdown := absurd (hup.symm.trans hdown) (by decide)
  shards := h.shards

theorem Process.Intact.up_of_job {established : List (UInt64 × String)}
    {k : (interface T).Reply c → Prog (interface T) Unit} (h : p.Intact J P good established s)
    (hj : p.jobs = .cmd c k) : p.main.up = true := by
  by_contra hdown
  have hret := (h.alone (Bool.eq_false_iff.mpr hdown)).1
  rw [hj] at hret
  cases hret

theorem Process.Intact.up_of_call {established : List (UInt64 × String)} {o : Outgoing T V}
    {call : ℕ} (h : p.Intact J P good established s) (ho : p.calls[call]? = some o) :
    p.main.up = true := by
  by_contra hdown
  rw [(h.alone (Bool.eq_false_iff.mpr hdown)).2] at ho
  cases ho

/-- A process that is up, one of whose calls goes on. -/
theorem Process.Intact.with_call {established : List (UInt64 × String)} {s' : Store T}
    {o o' : Outgoing T V} {call : ℕ} (h : p.Intact J P good established s)
    (ho : p.calls[call]? = some o)
    (ho' : o.Quiet J P p.settings.state p.settings.botId →
      o'.Quiet J P p.settings.state p.settings.botId) :
    Process.Intact J P good established s' { p with calls := p.calls.set call o' } := by
  have hup := h.up_of_call ho
  refine ⟨h.main.of_up hup, h.jobs, fun q hq => ?_,
    fun hdown => absurd (hup.symm.trans hdown) (by decide), h.shards⟩
  rcases List.mem_or_eq_of_mem_set hq with hq | rfl
  · exact h.calls q hq
  · exact ho' (h.calls o (List.mem_of_getElem? ho))

theorem mem_setInfo {shards : List (UInt64 × ShardInfo)} {shard : UInt64} {info : ShardInfo}
    {entry : UInt64 × ShardInfo} (h : entry ∈ setInfo shards shard info) :
    entry ∈ shards ∨ entry = (shard, info) := by
  rcases List.mem_append.mp h with h | h
  · exact .inl (List.mem_filter.mp h).1
  · exact .inr (List.mem_singleton.mp h)

theorem mem_of_lookup {shards : List (UInt64 × ShardInfo)} {shard : UInt64} {info : ShardInfo}
    (h : shards.lookup shard = some info) : (shard, info) ∈ shards := by
  obtain ⟨l₁, l₂, rfl, -⟩ := List.lookup_eq_some_iff.mp h
  simp

/-- A step of `real_main`. -/
theorem World.Intact.stepMain {w' : World T V} (h : w.Intact J P good)
    (hm : World.Moves J P w (.main env) w') : w'.Intact J P good := by
  cases hm with
  | @connect p c k _ hw hp =>
    have hq := h.process p hw
    have hshape := hq.main
    rw [hp] at hshape
    obtain ⟨hreads, hgranted⟩ := hshape
    rw [World.execute_read w _ (hreads c List.mem_cons_self)]
    have hsame : apply c w.store = w.store :=
      congrArg World.store (World.execute_read w p (hreads c List.mem_cons_self))
    refine h.process_eq (hq.with_main ⟨fun d hd => hreads d ?_, fun r hr => hgranted r ?_⟩
      fun _ => by rw [hp]; rfl)
    · refine List.mem_cons_of_mem _ ?_
      rwa [exec_snd, hsame, exec_fst]
    · rwa [Prog.run_issue, exec_snd, hsame, exec_fst]
  | @connected p clusters info _ hw hp =>
    exact h.process_eq ((h.process p hw).with_main (.inl ⟨env, rfl⟩) fun _ => by rw [hp]; rfl)
  | @announce p clusters c k _ hw hp =>
    have hq := h.process p hw
    have hshape := hq.main
    rw [hp] at hshape
    rcases hshape with ⟨env', he⟩ | ⟨orders, he⟩ | he
    · rw [announce, ExceptT.run_bind, run_set_eq (colon_notMem_of_gateway (by simp [gatewayKeys]))]
        at he
      cases he
      exact h.execute_set (fun hk => absurd hk (by decide)) (fun hk => absurd hk (by decide))
        (hq.with_main (.inr (.inl ⟨env'.orders, rfl⟩)) fun _ => by rw [hp]; rfl)
    · rw [run_set_eq (colon_notMem_of_gateway (by simp [gatewayKeys]))] at he
      cases he
      exact h.execute_set (fun _ => rfl) (fun hk => absurd hk (by decide))
        (hq.with_main (.inr (.inr rfl)) fun _ => by rw [hp]; rfl)
    · cases he
  | @announced p clusters _ hw hp =>
    have hq := h.process p hw
    refine h.process_eq ⟨trivial, hq.jobs, fun o ho => ?_, by rintro ⟨⟩, hq.shards⟩
    obtain ⟨_, -, rfl⟩ := List.mem_map.mp ho
    exact .start
  | @save p resumable c k _ hw hp =>
    have hq := h.process p hw
    have hshape := hq.main
    rw [hp] at hshape
    obtain ⟨hsaved, ⟨orders, he⟩ | he⟩ := hshape
    · rw [saveSessions, run_set_eq (colon_notMem_of_gateway (by simp [gatewayKeys]))] at he
      cases he
      exact h.execute_set (fun hk => absurd hk (by decide)) (fun _ => ⟨_, rfl, hsaved⟩)
        (hq.with_main ⟨hsaved, .inr rfl⟩ (by rintro ⟨⟩))
    · cases he

/-- A step of `run_jobs` within a round. -/
theorem World.Intact.stepJob {w' : World T V} (h : w.Intact J P good)
    (hm : World.Moves J P w .job w') : w'.Intact J P good := by
  cases hm with
  | @job p c k hw hp =>
    have hq := h.process p hw
    have hup := hq.up_of_job hp
    have hshape := hq.jobs
    rw [hp] at hshape
    cases hshape with
    | statuses hs =>
      exact h.execute_set (fun hk => absurd hk (by decide)) (fun hk => absurd hk (by decide))
        (hq.with_jobs hup (.sessions hs))
    | sessions hs =>
      exact h.execute_set (fun hk => absurd hk (by decide)) (fun _ => ⟨_, rfl, hs⟩)
        (hq.with_jobs hup (.sweeping sweep_quiet))
    | sweeping hs =>
      exact h.execute_quiet (hs.local h.noGateway) (hs.keeps h.noGateway)
        (hq.with_jobs hup (.sweeping (hs.next h.noGateway)))

/-- A step keeps the invariant, if good sessions stay good and those that are dumped and saved are
good. -/
theorem World.Intact.moves {w' : World T V} {move : Move} (h : w.Intact J P good)
    (hm : World.Moves J P w move w')
    (hgood : ∀ e e' sessions, e ⊆ e' → good e sessions → good e' sessions)
    (hround : ∀ jobsEnv statuses p, move = .round jobsEnv statuses → w.process = some p →
      p.Intact J P good w.established w.store → good w.established (dumpedSessions p.shards))
    (hdown : ∀ resumable orders p, move = .shutDown resumable orders → w.process = some p →
      p.Intact J P good w.established w.store →
      (∀ r ∈ resumable, (r.1, ⟨some r.2.sessionId, r.2.sequence⟩) ∈ p.shards) →
      good w.established (savedSessions resumable)) : w'.Intact J P good := by
  cases move with
  | main => exact h.stepMain hm
  | job => exact h.stepJob hm
  | start settings orders =>
    cases hm
    exact h.process_eq
      { main := getClusters_spec J settings orders w.store
        jobs := .sweeping (confined_ret ())
        calls := fun _ ho => nomatch ho
        alone := fun _ => ⟨rfl, rfl⟩
        shards := fun _ he => nomatch he }
  | shutDown resumable orders =>
    cases hm with
    | shutDown hw hp hr =>
      have hq := h.process _ hw
      exact h.process_eq (hq.with_main ⟨hdown _ _ _ rfl hw hq hr, .inl ⟨orders, rfl⟩⟩ nofun)
  | round jobsEnv statuses =>
    cases hm with
    | round hw hp hj =>
      have hq := h.process _ hw
      refine h.process_eq (hq.with_jobs hp ?_)
      rw [jobsRound_eq]
      exact .statuses (hround _ _ _ rfl hw hq)
  | shard shard info =>
    cases hm with
    | @shard p _ _ hw hp hi =>
      have hq := h.process _ hw
      have hsub : w.established ⊆
          (info.sessionId.map fun id => (shard, id)).toList ++ w.established :=
        List.subset_append_right _ _
      refine ⟨h.noGateway, h.shards, fun t ht => ?_, fun q hq' => Option.some.inj hq' ▸ ?_⟩
      · obtain ⟨hwriter, sessions, hs, hg⟩ := h.sessions t ht
        exact ⟨hwriter, sessions, hs, hgood _ _ _ hsub hg⟩
      refine ⟨hq.main.mono fun _ => hgood _ _ _ hsub, hq.jobs.mono fun _ => hgood _ _ _ hsub,
        hq.calls, hq.alone, fun entry he id hid => ?_⟩
      rcases mem_setInfo he with he | rfl
      · obtain ⟨hne, hest⟩ := hq.shards entry he id hid
        exact ⟨hne, hsub hest⟩
      · change info.sessionId = some id at hid
        refine ⟨fun hid' => hi (hid' ▸ hid), List.mem_append_left _ ?_⟩
        simp [hid]
  | dispatch shard seq call bytes dispatchEnv =>
    cases hm with
    | dispatch hw ho hs hlt =>
      have hq : Process.Intact J P good w.established w.store _ :=
        (h.process _ hw).with_call ho fun hquiet =>
          hquiet.receive ⟨shard.toNat, .shardPayload bytes, dispatchEnv⟩
      refine h.process_eq ⟨hq.main, hq.jobs, hq.calls, hq.alone, fun entry he id hid => ?_⟩
      rcases mem_setInfo he with he | rfl
      · exact hq.shards entry he id hid
      · exact hq.shards _ (mem_of_lookup hs) id hid
  | event call item =>
    cases hm with
    | event hw ho => exact h.process_eq ((h.process _ hw).with_call ho fun hq => hq.receive item)
  | outgoing call action =>
    cases hm with
    | silent hw ho hi hm =>
      exact h.process_eq ((h.process _ hw).with_call ho fun hq => hq.silent hm)
    | outgoing hw ho hi hm =>
      have hquiet := (h.process _ hw).calls _ (List.mem_of_getElem? ho)
      obtain ⟨hlocal, hn, ho'⟩ := hquiet.command hm h.noGateway
      exact h.execute_quiet hlocal hn ((h.process _ hw).with_call ho fun _ => ho')
  | stop =>
    cases hm
    exact ⟨h.noGateway, h.shards, h.sessions, fun _ hp => nomatch hp⟩

theorem World.Reached.intact {ok : World T V → Move → Prop} (h : World.Reached J P ok w)
    (hgood : ∀ e e' sessions, e ⊆ e' → good e sessions → good e' sessions)
    (hround : ∀ (w : World T V) (p : Process T V) jobsEnv statuses, ok w (.round jobsEnv statuses) → w.process = some p →
      p.Intact J P good w.established w.store → good w.established (dumpedSessions p.shards))
    (hdown : ∀ (w : World T V) (p : Process T V) resumable, w.process = some p → p.Intact J P good w.established w.store →
      (∀ r ∈ resumable, (r.1, ⟨some r.2.sessionId, r.2.sequence⟩) ∈ p.shards) →
      good w.established (savedSessions resumable)) : w.Intact J P good := by
  induction h with
  | init => exact .init
  | @step w w' move _ hok hstep ih =>
    refine ih.moves (World.moves_of_step hstep) hgood ?_ ?_
    · rintro jobsEnv statuses p rfl hw hp
      exact hround w p jobsEnv statuses hok hw hp
    · rintro resumable orders p - hw hp hr
      exact hdown w p resumable hw hp hr

end Intact

end TwilightDispatch
