import TwilightDispatch.GatewayKeys

/-!
# Resuming

`get_clusters` resumes the sessions it finds if the stored number of shards is its own. The number is
rewritten when a process starts, and the sessions only by its jobs and when it is shut down, so they
go together as long as no process ends in between (`resumed_same_total`). And the sessions are those
of the gateway as long as the jobs dump none before the shard has identified
(`resumed_established`).
-/

namespace TwilightDispatch

open Atomic Redis

variable {T V : Type} {J : Json T V} {P : PayloadJson V} {w w' : World T V} {p : Process T V}
  {shard : UInt64} {session : ResumeSession} {good : List (UInt64 × String) → Sessions → Prop}

/-- What `get_clusters` has returned. -/
def Process.connected (p : Process T V) : Option (List Cluster × ClusterInfo) :=
  match p.main with
  | .connecting (.ret (.ok r)) => some r
  | _ => none

theorem Process.main_of_connected {r : List Cluster × ClusterInfo} (h : p.connected = some r) :
    p.main = .connecting (.ret (.ok r)) := by
  unfold Process.connected at h
  split at h
  · next hp => rw [hp, Option.some.inj h]
  · cases h

/-- `get_clusters` has given the session to a cluster. -/
def World.Passes (w : World T V) (p : Process T V) (shard : UInt64) (session : ResumeSession) :
    Prop :=
  w.process = some p ∧ ∃ r, p.connected = some r ∧
    ∃ cluster ∈ r.1, cluster.resumeSessions.lookup shard = some session

/-- What `get_clusters` has returned was granted by the store. -/
theorem World.Intact.granted {r : List Cluster × ClusterInfo} (h : w.Intact J P good)
    (hw : w.process = some p) (hp : p.connected = some r) : Granted J p.settings w.store r := by
  have hshape := (h.process p hw).main
  rw [Process.main_of_connected hp] at hshape
  exact hshape.2 _ rfl

theorem World.Intact.resumable (h : w.Intact J P good) (hr : w.Passes p shard session) :
    Resumable J p.settings w.store shard session := by
  obtain ⟨hw, r, hp, cluster, hc, hs⟩ := hr
  obtain ⟨resumes, hresumes, hclusters, -⟩ := h.granted hw hp
  exact hresumes shard session (hclusters cluster hc ▸ hs)

/-- What can be resumed was written by processes, the number of shards by one that has this
number. -/
theorem World.Intact.written (h : w.Intact J P good) (hJ : J.Lawful) {settings : Settings}
    (hr : Resumable J settings w.store shard session) :
    ∃ counted saved sessions key value, w.writer SHARDS_KEY = some counted ∧
      counted.shardsTotal = settings.shardsTotal ∧ w.writer SESSIONS_KEY = some saved ∧
      good w.established sessions ∧ sessions.lookup key = some value ∧ parse key = some shard ∧
      session = ⟨none, value.sessionId, value.sequence⟩ := by
  obtain ⟨total, t, sessions, key, value, htotal, hn, ht, hsessions, hvalue, hparse, rfl⟩ := hr
  rw [h.shards, Option.map_eq_some_iff] at htotal
  obtain ⟨counted, hcounted, rfl⟩ := htotal
  rw [hJ.shardsTotal] at hn
  obtain ⟨hwriter, sessions', rfl, hgood⟩ := h.sessions t ht
  rw [hJ.sessions] at hsessions
  obtain rfl := Except.ok.inj hsessions
  obtain ⟨saved, hsaved⟩ := Option.ne_none_iff_exists'.mp hwriter
  exact ⟨counted, saved, sessions', key, value, hcounted, Except.ok.inj hn, hsaved, hgood, hvalue,
    hparse, rfl⟩

/-! ## The number of shards -/

/-- The sessions that a process is about to resume are stored, by a process with the same number of
shards. -/
def World.SameTotal (J : Json T V) (w : World T V) : Prop :=
  ∀ p shard session, w.Passes p shard session →
    Resumable J p.settings w.store shard session ∧
      ∃ settings, w.writer SESSIONS_KEY = some settings ∧
        settings.shardsTotal = p.settings.shardsTotal

/-- The stored number of shards and the stored sessions are of processes with the same number. -/
def World.Settled (w : World T V) : Prop :=
  ∀ counted ∈ w.writer SHARDS_KEY, ∀ saved ∈ w.writer SESSIONS_KEY,
    counted.shardsTotal = saved.shardsTotal

instance (w : World T V) : Decidable w.Settled :=
  inferInstanceAs (Decidable (∀ counted ∈ w.writer SHARDS_KEY, ∀ saved ∈ w.writer SESSIONS_KEY,
    counted.shardsTotal = saved.shardsTotal))

/-- No process ends between its writing of the number of shards and the next writing of the sessions,
if it has changed the number. -/
def World.EndsSettled (w : World T V) : Move → Prop
  | .stop => w.Settled
  | _ => True

instance : DecidableRel (World.EndsSettled : World T V → Move → Prop)
  | w, .stop => inferInstanceAs (Decidable w.Settled)
  | _, .start .. | _, .main .. | _, .shutDown .. | _, .round .. | _, .job | _, .shard ..
  | _, .dispatch .. | _, .event .. | _, .outgoing .. => .isTrue trivial

/-- Until a process has its clusters, the number of shards and the sessions go together. -/
def World.ConnectsSettled (w : World T V) : Prop :=
  (∀ p ∈ w.process, ∃ prog, p.main = .connecting prog) → w.Settled

theorem World.connectsSettled_of_up {p : Process T V} (hw : w.process = some p)
    (hup : p.main.up = true) : w.ConnectsSettled := by
  intro h
  obtain ⟨prog, hp⟩ := h p hw
  rw [hp] at hup
  cases hup

theorem World.ConnectsSettled.moves {move : Move} (h : w.ConnectsSettled) (hi : w.Intact J P good)
    (hok : w.EndsSettled move) (hm : World.Moves J P w move w') : w'.ConnectsSettled := by
  cases hm with
  | start hw => exact fun _ => h fun p hp => nomatch hw.symm.trans hp
  | @connect p c k _ hw hp =>
    have hshape := (hi.process p hw).main
    rw [hp] at hshape
    rw [World.execute_read w _ (hshape.1 c List.mem_cons_self)]
    refine fun _ => h fun q hq => ?_
    obtain rfl := Option.some.inj (hw.symm.trans hq)
    exact ⟨_, hp⟩
  | stop => exact fun _ => hok
  | connected | announce =>
    intro hall
    obtain ⟨prog, hmain⟩ := hall _ rfl
    cases hmain
  | announced | save | shutDown => exact World.connectsSettled_of_up rfl rfl
  | round hw hup | shard hw hup => exact World.connectsSettled_of_up rfl hup
  | job hw hj => exact World.connectsSettled_of_up rfl ((hi.process _ hw).up_of_job hj)
  | dispatch hw ho | event hw ho | silent hw ho | outgoing hw ho =>
    exact World.connectsSettled_of_up rfl ((hi.process _ hw).up_of_call ho)

theorem World.Reached.connectsSettled (h : World.Reached J P World.EndsSettled w) :
    w.ConnectsSettled := by
  induction h with
  | init => exact fun _ _ hcounted => nomatch hcounted
  | @step w w' move hr hok hstep ih =>
    have hi : w.Intact J P fun _ _ => True :=
      hr.intact (fun _ _ _ _ _ => trivial) (fun _ _ _ _ _ _ _ => trivial)
        fun _ _ _ _ _ _ => trivial
    exact ih.moves hi hok (World.moves_of_step hstep)

/-- **Sessions are resumed under the number of shards they were recorded with**, in every sequence of
processes of which none ends between its writing of the number of shards and the next writing of the
sessions, if it has changed the number. -/
theorem resumed_same_total (hJ : J.Lawful) (h : World.Reached J P World.EndsSettled w) :
    w.SameTotal J := by
  intro p shard session hr
  have hi : w.Intact J P fun _ _ => True :=
    h.intact (fun _ _ _ _ _ => trivial) (fun _ _ _ _ _ _ _ => trivial) fun _ _ _ _ _ _ => trivial
  have hresumable := hi.resumable hr
  obtain ⟨counted, saved, _, _, _, hcounted, htotal, hsaved, -⟩ := hi.written hJ hresumable
  refine ⟨hresumable, saved, hsaved, ?_⟩
  obtain ⟨hw, r, hp, -⟩ := hr
  have hsettled : w.Settled := h.connectsSettled fun q hq => by
    obtain rfl := Option.some.inj (hw.symm.trans hq)
    exact ⟨_, Process.main_of_connected hp⟩
  exact (hsettled counted hcounted saved hsaved).symm.trans htotal

section Example

/-- A process with `total` shards that resumes. -/
def Settings.of (total : UInt64) : Settings := ⟨0, total - 1, total, 1, true, .full, .of 9⟩

/-- A process starts, with `steps` commands and other steps of `real_main`. -/
def startMoves (total : UInt64) (steps : ℕ) : List Move :=
  .start (.of total) .sorted :: List.replicate steps (.main (.at (.of 0)))

/-- A process starts on an empty store, connects one shard, and dumps its session. -/
def dumpMoves (total : UInt64) (info : ShardInfo) : List Move :=
  startMoves total 5 ++ [.shard 0 info, .round (.at (.of 0)) [], .job, .job]

/-- The process that runs is about to resume the session `id` for the first shard. -/
def World.resumesId (id : String) (w : World T V) : Bool :=
  w.process.any fun p => p.connected.any fun r => r.1.any fun cluster =>
    (cluster.resumeSessions.lookup 0).any fun session => session.sessionId = id

theorem World.passes_of_resumesId {id : String} (h : w.resumesId id = true) :
    ∃ p session, w.Passes p 0 session ∧ session.sessionId = id := by
  obtain ⟨p, hw, h⟩ := (Option.any_eq_true _ _).mp h
  obtain ⟨r, hp, h⟩ := (Option.any_eq_true _ _).mp h
  obtain ⟨cluster, hc, h⟩ := List.any_eq_true.mp h
  obtain ⟨session, hs, h⟩ := (Option.any_eq_true _ _).mp h
  exact ⟨p, session, ⟨hw, r, hp, cluster, hc, hs⟩, of_decide_eq_true h⟩

end Example

/-- A process that is killed after a dump, and one that resumes the session. -/
theorem resumed_same_total_dumped : ∃ w : World Item Item,
    w.resumesId "first" = true ∧ w.SameTotal Json.plain := by
  have h : (World.perform Json.plain .empty World.EndsSettled
      (dumpMoves 2 ⟨some "first", 1⟩ ++ .stop :: startMoves 2 2) .init).any
      (World.resumesId "first") = true := by decide +kernel
  obtain ⟨w, hw, hid⟩ := (Option.any_eq_true _ _).mp h
  exact ⟨w, hid, resumed_same_total Json.plain_lawful (World.Reached.init.perform hw)⟩

/-- A process is killed after it has changed the number of shards: the next one resumes a session that
was recorded with another number. -/
theorem resumed_other_total : ∃ w : World Item Item,
    World.Reached Json.plain .empty (fun _ _ => True) w ∧ ¬ w.SameTotal Json.plain := by
  have h : (World.perform Json.plain .empty (fun _ _ => True)
      (dumpMoves 2 ⟨some "first", 1⟩ ++ .stop :: startMoves 4 4 ++ .stop :: startMoves 4 2) .init).any
      (fun w => w.resumesId "first" && (w.writer SESSIONS_KEY).all (·.shardsTotal = 2) &&
        w.process.all (·.settings.shardsTotal = 4)) = true := by decide +kernel
  obtain ⟨w, hw, h⟩ := (Option.any_eq_true _ _).mp h
  simp only [Bool.and_eq_true] at h
  obtain ⟨⟨hid, hwriter⟩, htotal⟩ := h
  refine ⟨w, World.Reached.init.perform hw, fun hsame => ?_⟩
  obtain ⟨p, session, hr, -⟩ := World.passes_of_resumesId hid
  obtain ⟨-, settings, hs, heq⟩ := hsame p 0 session hr
  rw [hs] at hwriter
  rw [hr.1] at htotal
  have h₂ : settings.shardsTotal = 2 := of_decide_eq_true hwriter
  have h₄ : p.settings.shardsTotal = 4 := of_decide_eq_true htotal
  rw [h₂, h₄] at heq
  exact absurd heq (by decide)

/-! ## Established sessions -/

/-- The sessions that a process is about to resume have been established, each with the shard it is
resumed for, and they are those that are counted. -/
def World.OnlyEstablished (w : World T V) : Prop :=
  ∀ p r, w.process = some p → p.connected = some r → ∃ resumes : Resumes,
    (∀ cluster ∈ r.1, cluster.resumeSessions = resumes) ∧
    r.2.resumes = UInt64.ofNat resumes.keys.card ∧
    ∀ shard session, resumes.lookup shard = some session →
      session.sessionId ≠ "" ∧ (shard, session.sessionId) ∈ w.established

/-- Every session is stored under the name of a shard with which it has been established. -/
def Genuine (established : List (UInt64 × String)) (sessions : Sessions) : Prop :=
  ∀ key value, sessions.lookup key = some value → ∃ shard : UInt64, key = toString shard ∧
    value.sessionId ≠ "" ∧ (shard, value.sessionId) ∈ established

/-- Whenever `run_jobs` begins a round, every shard that the clusters report has identified. -/
def World.RoundsIdentified (w : World T V) : Move → Prop
  | .round _ _ => ∀ p ∈ w.process, ∀ entry ∈ p.shards, entry.2.sessionId ≠ none
  | _ => True

instance : DecidableRel (World.RoundsIdentified : World T V → Move → Prop)
  | w, .round .. => inferInstanceAs (Decidable
      (∀ p ∈ w.process, ∀ entry ∈ p.shards, entry.2.sessionId ≠ none))
  | _, .start .. | _, .main .. | _, .shutDown .. | _, .stop | _, .job | _, .shard ..
  | _, .dispatch .. | _, .event .. | _, .outgoing .. => .isTrue trivial

theorem genuine_dumpedSessions {established : List (UInt64 × String)} {s : Store T}
    (h : p.Intact J P good established s) (hid : ∀ entry ∈ p.shards, entry.2.sessionId ≠ none) :
    Genuine established (dumpedSessions p.shards) := by
  intro key value hvalue
  obtain ⟨entry, hentry, hkey, hv⟩ := lookup_dumpedSessions hvalue
  obtain ⟨id, hsome⟩ := Option.ne_none_iff_exists'.mp (hid entry hentry)
  rw [hsome] at hv
  exact ⟨entry.1, hkey.symm, hv ▸ h.shards entry hentry id hsome⟩

theorem genuine_savedSessions {established : List (UInt64 × String)} {s : Store T}
    {resumable : List (UInt64 × ResumeSession)} (h : p.Intact J P good established s)
    (hr : ∀ r ∈ resumable, (r.1, ⟨some r.2.sessionId, r.2.sequence⟩) ∈ p.shards) :
    Genuine established (savedSessions resumable) := by
  intro key value hvalue
  obtain ⟨r, hmem, hkey, hv⟩ := lookup_savedSessions hvalue
  exact ⟨r.1, hkey.symm, hv ▸ h.shards _ (hr r hmem) r.2.sessionId rfl⟩

theorem Genuine.mono {e e' : List (UInt64 × String)} {sessions : Sessions} (he : e ⊆ e')
    (h : Genuine e sessions) : Genuine e' sessions := by
  intro key value hvalue
  obtain ⟨shard, hkey, hne, hmem⟩ := h key value hvalue
  exact ⟨shard, hkey, hne, he hmem⟩

/-- **Only established sessions are resumed**, in every sequence of processes in which every shard has
identified whenever a round of the jobs reads what the clusters report. -/
theorem resumed_established (hJ : J.Lawful) (h : World.Reached J P World.RoundsIdentified w) :
    w.OnlyEstablished := by
  intro p r hw hp
  have hi : w.Intact J P Genuine :=
    h.intact (fun _ _ _ => Genuine.mono) (fun w p _ _ hok hw hq => genuine_dumpedSessions hq (hok p hw))
      fun w p resumable _ hq => genuine_savedSessions hq
  obtain ⟨resumes, hresumes, hclusters, hcount⟩ := hi.granted hw hp
  refine ⟨resumes, hclusters, hcount, fun shard session hsession => ?_⟩
  obtain ⟨_, _, sessions, key, value, -, -, -, hgenuine, hvalue, hparse, rfl⟩ :=
    hi.written hJ (hresumes shard session hsession)
  obtain ⟨shard', rfl, hne, hmem⟩ := hgenuine key value hvalue
  rw [parse_toString] at hparse
  exact ⟨hne, Option.some.inj hparse ▸ hmem⟩

/-- A process that is killed after a dump, and one that resumes the session. -/
theorem resumed_established_dumped : ∃ w : World Item Item,
    w.resumesId "first" = true ∧ w.OnlyEstablished := by
  have h : (World.perform Json.plain .empty World.RoundsIdentified
      (dumpMoves 2 ⟨some "first", 1⟩ ++ .stop :: startMoves 2 2) .init).any
      (World.resumesId "first") = true := by decide +kernel
  obtain ⟨w, hw, hid⟩ := (Option.any_eq_true _ _).mp h
  exact ⟨w, hid, resumed_established Json.plain_lawful (World.Reached.init.perform hw)⟩

/-- A shard that has not identified yet is dumped with an empty session, and the next process resumes
it. -/
theorem resumed_unidentified : ∃ w : World Item Item,
    World.Reached Json.plain .empty (fun _ _ => True) w ∧ ¬ w.OnlyEstablished := by
  have h : (World.perform Json.plain .empty (fun _ _ => True)
      (dumpMoves 2 ⟨none, 0⟩ ++ .stop :: startMoves 2 2) .init).any
      (World.resumesId "") = true := by decide +kernel
  obtain ⟨w, hw, hid⟩ := (Option.any_eq_true _ _).mp h
  refine ⟨w, World.Reached.init.perform hw, fun hest => ?_⟩
  obtain ⟨p, session, ⟨hp, r, hr, cluster, hc, hs⟩, hempty⟩ := World.passes_of_resumesId hid
  obtain ⟨resumes, hclusters, -, honly⟩ := hest p r hp hr
  exact (honly 0 session (hclusters cluster hc ▸ hs)).1 hempty

end TwilightDispatch
