import TwilightDispatch.Region

/-!
# Sessions

What a process finds in Redis of the sessions of an earlier one, and what it leaves there:
`get_clusters` of `cluster.rs`, the keys `real_main` sets when it starts and when it is shut down,
and the round of `run_jobs`.
-/

namespace TwilightDispatch

open Atomic Redis

variable {T V α : Type}

/-! ## Settings -/

/-- The configuration of a process, and the user it is connected as. -/
structure Settings where
  shardsStart : UInt64
  shardsEnd : UInt64
  shardsTotal : UInt64
  clusters : UInt64
  resume : Bool
  state : Config
  botId : Id .user

/-! ## Clusters -/

structure ResumeSession where
  resumeUrl : Option String
  sessionId : String
  sequence : ℕ
  deriving DecidableEq

/-- The sessions a cluster is given to resume. -/
abbrev Resumes := Finmap fun _ : UInt64 => ResumeSession

/-- The sessions under the names of their shards. -/
abbrev Sessions := Finmap fun _ : String => SessionInfo

structure Cluster where
  fromShard : UInt64
  toShard : UInt64
  total : UInt64
  resumeSessions : Resumes

structure ClusterInfo where
  clusters : UInt64
  shards : UInt64
  resumes : UInt64
  deriving DecidableEq

/-- `str::parse` for an unsigned 64-bit number: decimal digits, after an optional plus sign. -/
def parse (key : String) : Option UInt64 :=
  let digits := match key.toList with
    | '+' :: digits => digits
    | digits => digits
  if digits ≠ [] ∧ digits.all Char.isDigit ∧ Nat.ofDigitChars 10 digits 0 < 2 ^ 64 then
    some (UInt64.ofNat (Nat.ofDigitChars 10 digits 0))
  else none

/-- `a + b`, which panics where it overflows. -/
def checkedAdd (a b : UInt64) : Api T UInt64 :=
  if a.toNat + b.toNat < 2 ^ 64 then pure (a + b) else throw .panic

/-- `a - b`, which panics where it overflows. -/
def checkedSub (a b : UInt64) : Api T UInt64 :=
  if b ≤ a then pure (a - b) else throw .panic

/-- Enter one stored session. A name that is not a number panics. -/
def insertResume (resumes : Resumes) (entry : String × SessionInfo) : Api T Resumes :=
  match parse entry.1 with
  | some shard => pure (resumes.insert shard ⟨none, entry.2.sessionId, entry.2.sequence⟩)
  | none => throw .panic

def getResumes (J : Json T V) (settings : Settings) (orders : Orders) : Api T Resumes :=
  if settings.resume then do
    if (← get J.shardsTotal SHARDS_KEY) = some settings.shardsTotal then
      let sessions := (← get J.sessions SESSIONS_KEY).getD ∅
      -- the hash map is iterated in any order
      ((orders.listing sessions.keys).filterMap fun key =>
        (sessions.lookup key).map (key, ·)).foldlM insertResume ∅
    else return ∅
  else pure ∅

/-- The last shard of the cluster `i`, whose first one is `lastIndex`. -/
def clusterEnd (base extra lastIndex : UInt64) (i : ℕ) : Api T UInt64 :=
  if i < extra.toNat then checkedAdd lastIndex base
  else do checkedSub (← checkedAdd lastIndex base) 1

/-- The clusters over `shards` shards, each given the sessions to resume. -/
def buildClusters (settings : Settings) (shards : UInt64) (resumes : Resumes) :
    Api T (List Cluster) := do
  if settings.clusters = 0 then throw .panic
  let base := shards / settings.clusters
  let extra := shards % settings.clusters
  let (clusters, _) ← (List.range settings.clusters.toNat).foldlM
    (fun (clusters, lastIndex) i => do
      let index ← clusterEnd base extra lastIndex i
      let cluster : Cluster := ⟨lastIndex, index, settings.shardsTotal, resumes⟩
      return (clusters ++ [cluster], ← checkedAdd index 1))
    (([] : List Cluster), settings.shardsStart)
  return clusters

def getClusters (J : Json T V) (settings : Settings) (orders : Orders) :
    Api T (List Cluster × ClusterInfo) := do
  let resumes ← getResumes J settings orders
  let shards ← checkedAdd (← checkedSub settings.shardsEnd settings.shardsStart) 1
  let clusters ← buildClusters settings shards resumes
  return (clusters, ⟨settings.clusters, shards, UInt64.ofNat resumes.keys.card⟩)

/-! ## What a process leaves -/

/-- What `real_main` sets once it has its clusters. -/
def announce (J : Json T V) (settings : Settings) (env : Env) : Api T Unit := do
  set J env.orders STARTED_KEY (.timestamp env.now)
  set J env.orders SHARDS_KEY (.shardsTotal settings.shardsTotal)

/-- What a cluster reports about one of its shards: there is no session before the shard has
identified. -/
structure ShardInfo where
  sessionId : Option String
  seq : ℕ
  deriving DecidableEq

/-- The sessions `run_jobs` dumps: those of all shards that the clusters report. -/
def dumpedSessions (info : List (UInt64 × ShardInfo)) : Sessions :=
  info.foldl (fun sessions shard =>
    sessions.insert (toString shard.1) ⟨shard.2.sessionId.getD "", shard.2.seq⟩) ∅

/-- The sessions `real_main` saves: those that `down_resumable` returned. -/
def savedSessions (resumable : List (UInt64 × ResumeSession)) : Sessions :=
  resumable.foldl (fun sessions shard =>
    sessions.insert (toString shard.1) ⟨shard.2.sessionId, shard.2.sequence⟩) ∅

/-- The last thing `real_main` does. -/
def saveSessions (J : Json T V) (orders : Orders) (resumable : List (UInt64 × ResumeSession)) :
    Api T Unit :=
  set J orders SESSIONS_KEY (.sessions (savedSessions resumable))

/-- A round of `run_jobs`, from what it has read of the clusters. Errors are only logged. -/
def jobsRound (J : Json T V) (env : Env) (statuses : List StatusInfo) (sessions : Sessions) :
    Prog (interface T) Unit := do
  let _ ← ExceptT.run (set J env.orders STATUSES_KEY
    (.statuses (statuses.insertionSort fun a b => a.shard ≤ b.shard)))
  let _ ← ExceptT.run (set J env.orders SESSIONS_KEY (.sessions sessions))
  sweep J env

/-! ## The commands of a process for its own keys -/

/-- The keys a process keeps about itself. -/
def gatewayKeys : List String := [STARTED_KEY, SHARDS_KEY, STATUSES_KEY, SESSIONS_KEY]

theorem colon_notMem_of_gateway {key : String} (h : key ∈ gatewayKeys) : ':' ∉ key.toList := by
  revert key
  decide

section Keys

variable {J : Json T V} {orders : Orders} {env : Env} {key : String}

theorem setMembers_eq_nil (h : ':' ∉ key.toList) : setMembers key = [] := by
  simp [setMembers, split_eq_singleton h]

theorem newKey_eq_self (h : ':' ∉ key.toList) : newKey key = key := by
  simp [newKey, split_eq_singleton h]

/-- A key of one part is set by one command. -/
theorem set_eq (h : ':' ∉ key.toList) (value : Item) :
    set J orders key value = redis (.mset [(key, J.text value)]) := by
  have hnil : orders.members [] = [] := List.perm_nil.mp (orders.members_perm [])
  have hentries : [(key, value)].flatMap (fun kv : String × Item => setMembers kv.1) = [] := by
    simp [setMembers_eq_nil h]
  change (do
    redis (.mset [(newKey key, J.text value)])
    (orders.members (([(key, value)].flatMap fun kv : String × Item =>
      setMembers kv.1).foldl pushMember [])).forM
        fun kv : String × List String => (redis (.sadd kv.1 kv.2) : Api T Unit)) = _
  rw [hentries, List.foldl_nil, hnil, newKey_eq_self h]
  exact bind_pure (redis (.mset [(key, J.text value)]) : Api T Unit)

theorem run_set_eq (h : ':' ∉ key.toList) (value : Item) :
    ExceptT.run (set J orders key value) = .cmd (.mset [(key, J.text value)])
      fun r => .ret (r.mapError fun err => .error (.redis err)) := by
  rw [set_eq h]
  rfl

theorem jobsRound_eq (statuses : List StatusInfo) (sessions : Sessions) :
    jobsRound J env statuses sessions =
      .cmd (.mset [(STATUSES_KEY, J.text (.statuses
        (statuses.insertionSort fun a b => a.shard ≤ b.shard)))]) fun _ =>
      .cmd (.mset [(SESSIONS_KEY, J.text (.sessions sessions))]) fun _ => sweep J env := by
  unfold jobsRound
  rw [run_set_eq (colon_notMem_of_gateway (by simp [gatewayKeys])),
    run_set_eq (colon_notMem_of_gateway (by simp [gatewayKeys]))]
  rfl

end Keys

/-! ## Names of shards -/

theorem parse_toString (shard : UInt64) : parse (toString shard) = some shard := by
  have hdigits : (toString shard).toList = Nat.toDigits 10 shard.toNat := by
    change (shard.toNat.repr).toList = _
    exact Nat.toList_repr
  have hplus : ∀ digits, Nat.toDigits 10 shard.toNat ≠ '+' :: digits := by
    intro digits h
    have := Nat.isDigit_of_mem_toDigits (b := 10) (n := shard.toNat) (c := '+') (by omega) (by omega)
      (by rw [h]; exact List.mem_cons_self)
    exact absurd this (by decide)
  have hall : (Nat.toDigits 10 shard.toNat).all Char.isDigit = true :=
    List.all_eq_true.mpr fun c hc => Nat.isDigit_of_mem_toDigits (by omega) (by omega) hc
  have hmatch : (match Nat.toDigits 10 shard.toNat with
      | '+' :: digits => digits
      | digits => digits) = Nat.toDigits 10 shard.toNat := by
    split
    · next digits h => exact absurd h (hplus digits)
    · rfl
  have hlt := shard.toNat_lt
  unfold parse
  rw [hdigits, hmatch, if_pos ⟨Nat.toDigits_ne_nil, hall, by rwa [Nat.ofDigitChars_ten_toDigits]⟩,
    Nat.ofDigitChars_ten_toDigits, UInt64.ofNat_toNat]

theorem savedSessions_eq (resumable : List (UInt64 × ResumeSession)) :
    savedSessions resumable = setFields (resumable.map fun r =>
      (toString r.1, (⟨r.2.sessionId, r.2.sequence⟩ : SessionInfo))) ∅ := by
  unfold savedSessions setFields
  rw [List.foldl_map]

theorem dumpedSessions_eq (info : List (UInt64 × ShardInfo)) :
    dumpedSessions info = setFields (info.map fun shard =>
      (toString shard.1, (⟨shard.2.sessionId.getD "", shard.2.seq⟩ : SessionInfo))) ∅ := by
  unfold dumpedSessions setFields
  rw [List.foldl_map]

/-- What a map that is filled entry by entry holds is one of the entries. -/
theorem mem_of_lookup_setFields {entries : List (String × SessionInfo)} {k : String}
    {v : SessionInfo} (h : (setFields entries ∅).lookup k = some v) : (k, v) ∈ entries := by
  rw [lookup_setFields, Finmap.lookup_empty, Option.or_none] at h
  exact mem_of_lastOf h

theorem lookup_dumpedSessions {info : List (UInt64 × ShardInfo)} {k : String} {v : SessionInfo}
    (h : (dumpedSessions info).lookup k = some v) : ∃ shard ∈ info,
      toString shard.1 = k ∧ (⟨shard.2.sessionId.getD "", shard.2.seq⟩ : SessionInfo) = v := by
  rw [dumpedSessions_eq] at h
  obtain ⟨shard, hshard, hentry⟩ := List.mem_map.mp (mem_of_lookup_setFields h)
  exact ⟨shard, hshard, Prod.mk.inj hentry⟩

theorem lookup_savedSessions {resumable : List (UInt64 × ResumeSession)} {k : String}
    {v : SessionInfo} (h : (savedSessions resumable).lookup k = some v) : ∃ shard ∈ resumable,
      toString shard.1 = k ∧ (⟨shard.2.sessionId, shard.2.sequence⟩ : SessionInfo) = v := by
  rw [savedSessions_eq] at h
  obtain ⟨shard, hshard, hentry⟩ := List.mem_map.mp (mem_of_lookup_setFields h)
  exact ⟨shard, hshard, Prod.mk.inj hentry⟩

/-! ## What a process resumes -/

/-- What Redis says about a session: it is stored, and the stored number of shards is that of the
settings. -/
def Resumable (J : Json T V) (settings : Settings) (s : Store T) (shard : UInt64)
    (r : ResumeSession) : Prop :=
  ∃ total t sessions key value, s.strings SHARDS_KEY = some total ∧
    J.shardsTotal total = .ok settings.shardsTotal ∧ s.strings SESSIONS_KEY = some t ∧
    J.sessions t = .ok sessions ∧ sessions.lookup key = some value ∧ parse key = some shard ∧
    r = ⟨none, value.sessionId, value.sequence⟩

section Clusters

variable {J : Json T V} {settings : Settings} {orders : Orders} {s : Store T}

/-- Nothing has been changed, and only reads have been executed. -/
def Looked (s : Store T) (l : Store T × List (Unit × Cmd T)) : Prop :=
  l.1 = s ∧ ∀ c ∈ l.2, IsRead c.2

theorem keeps_get {decode : T → Except SimdJsonError α} {key : String} :
    Keeps (recorded exec ()) (Looked s) (get decode key)
      fun r => ∀ a, r = some a → ∃ t, s.strings key = some t ∧ decode t = .ok a := by
  have hl := Keeps.logic (ε := Failure) (recorded (exec (T := T)) ()) (Looked s)
  refine hl.bind (Q := fun r => r = s.strings key) ?_ fun r hr => ?_
  · rintro ⟨s', log⟩ ⟨rfl, hlog⟩
    refine ⟨⟨rfl, fun c hc => ?_⟩, fun r hr => (Except.ok.inj hr).symm⟩
    rcases List.mem_append.mp hc with hc | hc
    · exact hlog c hc
    · rw [List.mem_singleton.mp hc]
      trivial
  · rcases r with _ | t
    · exact hl.pure nofun
    · change Keeps (recorded exec ()) (Looked s) (orSimdJson (decode t) >>= _) _
      rcases hd : decode t with err | a
      · exact hl.throw
      · exact hl.pure fun b hb => ⟨t, hr.symm, hd.trans (congrArg _ (Option.some.inj hb))⟩

theorem keeps_getResumes : Keeps (recorded exec ()) (Looked s) (getResumes J settings orders)
    fun resumes => ∀ shard r, resumes.lookup shard = some r → Resumable J settings s shard r := by
  have hl := Keeps.logic (ε := Failure) (recorded (exec (T := T)) ()) (Looked s)
  have hempty : ∀ shard r, (∅ : Resumes).lookup shard = some r → Resumable J settings s shard r :=
    fun shard r h => absurd h (by simp)
  refine hl.ite (fun _ => hl.bind keeps_get fun total htotal => ?_) fun _ => hl.pure hempty
  refine hl.ite (fun heq => hl.bind keeps_get fun stored hstored => ?_) fun _ => hl.pure hempty
  obtain ⟨t, ht, hn⟩ := htotal _ heq
  refine hl.foldlM (fun resumes hresumes entry hentry => ?_) hempty
  obtain ⟨key, -, hkey⟩ := List.mem_filterMap.mp hentry
  obtain ⟨value, hvalue, rfl⟩ := Option.map_eq_some_iff.mp hkey
  rcases stored with _ | sessions
  · simp at hvalue
  obtain ⟨t', ht', hs⟩ := hstored _ rfl
  unfold insertResume
  rcases hparse : parse key with _ | shard
  · exact hl.throw
  refine hl.pure fun shard' r h => ?_
  by_cases hshard : shard' = shard
  · subst hshard
    rw [Finmap.lookup_insert] at h
    exact ⟨t, t', sessions, key, value, ht, hn, ht', hs, hvalue, hparse, (Option.some.inj h).symm⟩
  · rw [Finmap.lookup_insert_of_ne _ hshard] at h
    exact hresumes shard' r h

/-- What `get_clusters` returns: every cluster is given the same sessions, which Redis holds, and
their number is reported. -/
def Granted (J : Json T V) (settings : Settings) (s : Store T) (r : List Cluster × ClusterInfo) :
    Prop :=
  ∃ resumes : Resumes, (∀ shard session, resumes.lookup shard = some session →
      Resumable J settings s shard session) ∧
    (∀ cluster ∈ r.1, cluster.resumeSessions = resumes) ∧
    r.2.resumes = UInt64.ofNat resumes.keys.card

section Logic

variable {P : {α : Type} → Api T α → (α → Prop) → Prop} (hl : Logic P)
include hl

theorem logic_checkedAdd (a b : UInt64) : P (checkedAdd a b) fun _ => True :=
  hl.ite (fun _ => hl.pure trivial) fun _ => hl.throw

theorem logic_checkedSub (a b : UInt64) : P (checkedSub a b) fun _ => True :=
  hl.ite (fun _ => hl.pure trivial) fun _ => hl.throw

/-- Every cluster is given the same sessions. -/
theorem logic_buildClusters {shards : UInt64} {resumes : Resumes} :
    P (buildClusters settings shards resumes)
      fun clusters => ∀ cluster ∈ clusters, cluster.resumeSessions = resumes := by
  refine hl.ite (fun _ => hl.throw) fun _ => ?_
  refine hl.bind (Q := fun acc => ∀ cluster ∈ acc.1, cluster.resumeSessions = resumes)
    (hl.foldlM (fun acc hacc i _ => ?_) fun _ h => nomatch h) fun acc hacc => hl.pure hacc
  obtain ⟨clusters, lastIndex⟩ := acc
  have hindex : P (clusterEnd (shards / settings.clusters) (shards % settings.clusters) lastIndex i)
      fun _ => True :=
    hl.ite (fun _ => logic_checkedAdd hl _ _) fun _ =>
      hl.andThen (logic_checkedAdd hl _ _) fun _ => logic_checkedSub hl _ _
  have hall : ∀ index : UInt64, ∀ cluster ∈ clusters ++
      [(⟨lastIndex, index, settings.shardsTotal, resumes⟩ : Cluster)],
      cluster.resumeSessions = resumes := by
    intro index cluster hc
    rcases List.mem_append.mp hc with hc | hc
    · exact hacc cluster hc
    · rw [List.mem_singleton.mp hc]
  exact hl.andThen hindex fun index =>
    hl.andThen (logic_checkedAdd hl _ _) fun next => hl.pure (hall index)

/-- `get_clusters` reads keys of a process only. -/
theorem logic_getClusters (hget : ∀ key ∈ gatewayKeys, P (redis (.get key)) fun _ => True) :
    P (getClusters J settings orders) fun _ => True := by
  have hresumes : P (getResumes J settings orders) fun _ => True := by
    refine hl.ite (fun _ => ?_) fun _ => hl.pure trivial
    refine hl.andThen (logic_get hl (hget _ (by simp [gatewayKeys])) _) fun total => ?_
    refine hl.ite (fun _ => ?_) fun _ => hl.pure trivial
    refine hl.andThen (logic_get hl (hget _ (by simp [gatewayKeys])) _) fun sessions => ?_
    refine hl.foldlM (fun resumes _ entry _ => ?_) trivial
    unfold insertResume
    cases parse entry.1 with
    | none => exact hl.throw
    | some shard => exact hl.pure trivial
  refine hl.andThen hresumes fun resumes => ?_
  refine hl.andThen (logic_checkedSub hl _ _) fun n => ?_
  refine hl.andThen (logic_checkedAdd hl _ _) fun shards => ?_
  exact hl.andThen (hl.weaken (logic_buildClusters hl) fun _ _ => trivial)
    fun clusters => hl.pure trivial

end Logic

theorem keeps_getClusters : Keeps (recorded exec ()) (Looked s) (getClusters J settings orders)
    (Granted J settings s) := by
  have hl := Keeps.logic (ε := Failure) (recorded (exec (T := T)) ()) (Looked s)
  refine hl.bind keeps_getResumes fun resumes hresumes => ?_
  refine hl.andThen (logic_checkedSub hl _ _) fun n => ?_
  refine hl.andThen (logic_checkedAdd hl _ _) fun shards => ?_
  exact hl.bind (logic_buildClusters hl) fun clusters hclusters =>
    hl.pure ⟨resumes, hresumes, hclusters, rfl⟩

/-- `get_clusters` only reads, and resumes what Redis says can be resumed. -/
theorem getClusters_spec (J : Json T V) (settings : Settings) (orders : Orders) (s : Store T) :
    (∀ c ∈ Fallible.trace exec (getClusters J settings orders) s, IsRead c) ∧
      ∀ r, (Fallible.run exec (getClusters J settings orders) s).1 = .ok r →
        Granted J settings s r := by
  have hkeeps : Keeps (recorded exec ()) (Looked s) (getClusters J settings orders)
    (Granted J settings s) := keeps_getClusters
  have h := hkeeps (s, []) ⟨rfl, fun _ hc => nomatch hc⟩
  rw [Fallible.run_recorded] at h
  exact ⟨fun c hc => h.1.2 ((), c) (by simpa using hc), h.2⟩

end Clusters

end TwilightDispatch
