import TwilightDispatch.Metrics
import TwilightDispatch.Refresh

/-!
# The rounds of the metrics

`run_jobs` of `metrics.rs` sets the gauges again and again (`metricsRound`): how many shards there are and
in which stages, their latencies, and what the cache holds. A round sees what the shards report of
themselves and how `getStateStats` ends.

The gauges of the stages are those of the last round, each latency is that of the last round in which its
shard has reported, and the counts of the cache are those that the last round has read (`gauges_after`).
-/

namespace TwilightDispatch

open Atomic Redis

/-! ## The code -/

inductive Stage where
  | connected
  | disconnected
  | handshaking
  | identifying
  | resuming
  deriving DecidableEq

def STAGES : List Stage := [.connected, .disconnected, .handshaking, .identifying, .resuming]

/-- What a shard reports of itself: the text of its stage, and the latencies that it keeps, in
milliseconds. -/
structure ShardReport where
  id : UInt64
  stage : String
  recent : List ℕ

/-- The latency at the back, if there is one. -/
def ShardReport.latency (report : ShardReport) : ℕ := report.recent.getLast?.getD 0

/-- The gauges; a gauge with labels has values for those that have been set. -/
structure Gauges where
  gatewayShards : ℕ
  gatewayLatencies : String → Option ℕ
  gatewayStatuses : String → Option ℕ
  state : StateStats

/-- What a round sees: the shards of each cluster, of which some report nothing, and the counts. -/
structure Seen where
  clusters : List (List (Option ShardReport))
  stats : Except Failure StateStats

/-- The shards that report, in order. -/
def Seen.reports (seen : Seen) : List ShardReport := seen.clusters.flatten.filterMap id

section Code

variable (display : Stage → String)

/-- The counts that a round starts with. -/
def noStatuses : String → Option ℕ :=
  STAGES.foldl (fun statuses stage => Function.update statuses (display stage) (some 0)) fun _ => none

/-- A stage is counted if it is one of those. -/
def countStatus (statuses : String → Option ℕ) (report : ShardReport) : String → Option ℕ :=
  match statuses report.stage with
  | some count => Function.update statuses report.stage (some (count + 1))
  | none => statuses

def setLatency (latencies : String → Option ℕ) (report : ShardReport) : String → Option ℕ :=
  Function.update latencies (toString report.id) (some report.latency)

/-- A round of `run_jobs`. The order in which the counts are taken out of their map does not matter, as
each has a label of its own. -/
def metricsRound (gauges : Gauges) (seen : Seen) : Gauges where
  gatewayShards := seen.clusters.foldl (fun acc shards => acc + shards.length) 0
  gatewayLatencies := seen.reports.foldl setLatency gauges.gatewayLatencies
  gatewayStatuses label :=
    (seen.reports.foldl countStatus (noStatuses display) label).or (gauges.gatewayStatuses label)
  state :=
    match seen.stats with
    | .ok stats => stats
    -- an error is only logged
    | .error _ => gauges.state

end Code

/-! ## Counting -/

variable {display : Stage → String} {label : String}

theorem foldl_zero {stage : Stage} (stages : List Stage) (statuses : String → Option ℕ)
    (h : stage ∈ stages ∨ statuses (display stage) = some 0) :
    stages.foldl (fun statuses stage => Function.update statuses (display stage) (some 0)) statuses
      (display stage) = some 0 := by
  induction stages generalizing statuses with
  | nil => exact h.resolve_left List.not_mem_nil
  | cons first stages ih =>
    refine ih _ ?_
    show stage ∈ stages ∨ Function.update statuses (display first) (some 0) (display stage) = some 0
    by_cases hdisplay : display stage = display first
    · exact .inr (by rw [hdisplay, Function.update_self])
    · rw [Function.update_of_ne hdisplay]
      refine h.imp_left fun hmem => (List.mem_cons.mp hmem).resolve_left fun heq => ?_
      exact hdisplay (congrArg display heq)

/-- The counts start at zero. -/
theorem noStatuses_display (stage : Stage) : noStatuses display (display stage) = some 0 := by
  refine foldl_zero STAGES _ (.inl ?_)
  cases stage <;> decide

theorem countStatus_apply (statuses : String → Option ℕ) (report : ShardReport) :
    countStatus statuses report label =
      (statuses label).map (· + if report.stage = label then 1 else 0) := by
  unfold countStatus
  by_cases hlabel : report.stage = label
  · subst hlabel
    rcases hcount : statuses report.stage with _ | count
    · simp [hcount]
    · simp
  · rw [if_neg hlabel]
    rcases statuses report.stage with _ | count
    · simp
    · simp [Function.update_of_ne (Ne.symm hlabel)]

/-- The counts after some reports. -/
theorem foldl_countStatus (reports : List ShardReport) (statuses : String → Option ℕ) :
    reports.foldl countStatus statuses label =
      (statuses label).map (· + reports.countP (·.stage = label)) := by
  induction reports generalizing statuses with
  | nil => simp
  | cons report reports ih =>
    rw [List.foldl_cons, ih, countStatus_apply, Option.map_map, List.countP_cons]
    refine congrArg (Option.map · _) (funext fun count => ?_)
    simp only [Function.comp, decide_eq_true_eq]
    omega

/-- The latency of a shard after some reports is that of its last one. -/
theorem foldl_setLatency (reports : List ShardReport) (latencies : String → Option ℕ) :
    reports.foldl setLatency latencies label =
      ((reports.filter (toString ·.id = label)).getLast?.map ShardReport.latency).or
        (latencies label) := by
  induction reports using List.reverseRecOn with
  | nil => rfl
  | append_singleton reports report ih =>
    rw [List.foldl_append, List.filter_append, List.foldl_cons, List.foldl_nil, setLatency]
    by_cases hlabel : toString report.id = label
    · rw [List.filter_cons_of_pos (by simpa using hlabel), ← hlabel, Function.update_self]
      simp
    · rw [List.filter_cons_of_neg (by simpa using hlabel), Function.update_of_ne (Ne.symm hlabel)]
      simpa using ih

theorem foldl_length (clusters : List (List (Option ShardReport))) (acc : ℕ) :
    clusters.foldl (fun acc shards => acc + shards.length) acc = acc + clusters.flatten.length := by
  induction clusters generalizing acc with
  | nil => rfl
  | cons shards clusters ih =>
    rw [List.foldl_cons, ih, List.flatten_cons, List.length_append, Nat.add_assoc]

/-- A report is counted in one stage. -/
theorem sum_countP (hdisplay : display.Injective) {reports : List ShardReport}
    (h : ∀ report ∈ reports, ∃ stage, report.stage = display stage) :
    (STAGES.map fun stage => reports.countP (·.stage = display stage)).sum = reports.length := by
  induction reports with
  | nil => rfl
  | cons report reports ih =>
    obtain ⟨stage, hstage⟩ := h report List.mem_cons_self
    have hone : (STAGES.map fun stage' => if report.stage = display stage' then 1 else 0).sum = 1 := by
      rw [hstage]
      cases stage <;> simp [STAGES, hdisplay.eq_iff]
    have ih := ih fun report hreport => h report (List.mem_cons_of_mem _ hreport)
    simp only [List.countP_cons, decide_eq_true_eq, List.sum_map_add, List.length_cons]
    rw [ih, hone]

/-! ## Rounds -/

section Rounds

variable (display) (gauges : Gauges) (rounds : List Seen) (last : Seen)

/-- The latency of a shard is that of the last round in which it has reported. -/
theorem latencies_after : (rounds.foldl (metricsRound display) gauges).gatewayLatencies label =
    (((rounds.flatMap Seen.reports).filter (toString ·.id = label)).getLast?.map
      ShardReport.latency).or (gauges.gatewayLatencies label) := by
  rw [← foldl_setLatency]
  induction rounds generalizing gauges with
  | nil => rfl
  | cons round rounds ih =>
    rw [List.foldl_cons, ih, List.flatMap_cons, List.foldl_append]
    rfl

/-- The stages of a round are those of its reports. -/
theorem statuses_after (stage : Stage) :
    (metricsRound display gauges last).gatewayStatuses (display stage) =
      some (last.reports.countP (·.stage = display stage)) := by
  unfold metricsRound
  simp only
  rw [foldl_countStatus, noStatuses_display, Option.map_some, Option.some_or, Nat.zero_add]

end Rounds

/-- The kinds with their counts. -/
def StateStats.counts (stats : StateStats) : List (String × ℕ) :=
  [(GUILD_KEY, stats.guilds), (CHANNEL_KEY, stats.channels), (MESSAGE_KEY, stats.messages),
    (ROLE_KEY, stats.roles), (EMOJI_KEY, stats.emojis), (MEMBER_KEY, stats.members),
    (PRESENCE_KEY, stats.presences), (VOICE_KEY, stats.voices)]

/-- Every count is the size of the index of its kind where the commands have read it. -/
def StateStats.ReadBy {T : Type} (stats : StateStats) (issued : List (Cmd T × Store T)) : Prop :=
  ∀ kind count, (kind, count) ∈ stats.counts →
    ∃ st, (.scard (kindKeys kind), st) ∈ issued ∧ count = (st.sets (kindKeys kind)).card

/-- Whatever other clients do in between, the counting does not fail, and returns what it has read. -/
theorem yields_getStateStats {T : Type} :
    Fallible.Yields exec (getStateStats : Api T StateStats) fun issued r =>
      ∃ stats, r = .ok stats ∧ stats.ReadBy issued := by
  have hlen (kind : String) : Fallible.Yields exec (getMembersLen (kindKeys kind) : Api T ℕ)
      fun l r => ∃ st, l = [(.scard (kindKeys kind), st)] ∧ r = .ok (st.sets (kindKeys kind)).card :=
    yields_redis _
  refine Fallible.yields_bind ((hlen GUILD_KEY).mono ?_)
  rintro _ _ ⟨guilds, rfl, rfl⟩
  refine Fallible.yields_bind ((hlen CHANNEL_KEY).mono ?_)
  rintro _ _ ⟨channels, rfl, rfl⟩
  refine Fallible.yields_bind ((hlen MESSAGE_KEY).mono ?_)
  rintro _ _ ⟨messages, rfl, rfl⟩
  refine Fallible.yields_bind ((hlen ROLE_KEY).mono ?_)
  rintro _ _ ⟨roles, rfl, rfl⟩
  refine Fallible.yields_bind ((hlen EMOJI_KEY).mono ?_)
  rintro _ _ ⟨emojis, rfl, rfl⟩
  refine Fallible.yields_bind ((hlen MEMBER_KEY).mono ?_)
  rintro _ _ ⟨members, rfl, rfl⟩
  refine Fallible.yields_bind ((hlen PRESENCE_KEY).mono ?_)
  rintro _ _ ⟨presences, rfl, rfl⟩
  refine Fallible.yields_bind ((hlen VOICE_KEY).mono ?_)
  rintro _ _ ⟨voices, rfl, rfl⟩
  refine Fallible.yields_pure ⟨_, rfl, fun kind count hcount => ?_⟩
  simp only [StateStats.counts, List.mem_cons, Prod.mk.injEq, List.not_mem_nil, or_false] at hcount
  rcases hcount with ⟨rfl, rfl⟩ | ⟨rfl, rfl⟩ | ⟨rfl, rfl⟩ | ⟨rfl, rfl⟩ | ⟨rfl, rfl⟩ | ⟨rfl, rfl⟩ |
    ⟨rfl, rfl⟩ | ⟨rfl, rfl⟩ <;> exact ⟨_, by simp, rfl⟩

/-- **What the gauges show.** After any rounds, the last of which has counted the cache while other clients
did whatever they do: how many shards there are, how many of those that report are in each stage, for each
shard the latency of the last round in which it has reported, and the counts that the last round has
read. -/
theorem gauges_after {T : Type} {display : Stage → String} (hdisplay : display.Injective)
    (gauges : Gauges) (rounds : List Seen) {last : Seen} {issued : List (Cmd T × Store T)}
    (hstats : Prog.Issues exec (ExceptT.run getStateStats) issued (.ret last.stats))
    (hstages : ∀ report ∈ last.reports, ∃ stage, report.stage = display stage) :
    let after := (rounds ++ [last]).foldl (metricsRound display) gauges
    after.gatewayShards = last.clusters.flatten.length ∧
    (∃ counts : Stage → ℕ, (∀ stage, after.gatewayStatuses (display stage) = some (counts stage)) ∧
      (∀ stage, counts stage = last.reports.countP (·.stage = display stage)) ∧
      (STAGES.map counts).sum = last.reports.length) ∧
    (∀ label, after.gatewayLatencies label =
      ((((rounds ++ [last]).flatMap Seen.reports).filter (toString ·.id = label)).getLast?.map
        ShardReport.latency).or (gauges.gatewayLatencies label)) ∧
    last.stats = .ok after.state ∧ after.state.ReadBy issued := by
  intro after
  have hafter : after = metricsRound display (rounds.foldl (metricsRound display) gauges) last := by
    show (rounds ++ [last]).foldl _ _ = _
    rw [List.foldl_append]
    rfl
  obtain ⟨stats, hok, hread⟩ := yields_getStateStats _ _ hstats
  have hstate : after.state = stats := by
    rw [hafter]
    unfold metricsRound
    simp only [hok]
  refine ⟨?_, ⟨fun stage => last.reports.countP (·.stage = display stage), fun stage => ?_,
    fun _ => rfl, sum_countP hdisplay hstages⟩, fun label => latencies_after display gauges _,
    hstate ▸ hok, hstate ▸ hread⟩
  · rw [hafter]
    exact (foldl_length last.clusters 0).trans (Nat.zero_add _)
  · rw [hafter]
    exact statuses_after display _ last stage

/-- The texts of the stages. -/
def Stage.text : Stage → String
  | connected => "Connected"
  | disconnected => "Disconnected"
  | handshaking => "Handshaking"
  | identifying => "Identifying"
  | resuming => "Resuming"

theorem Stage.text_injective : Stage.text.Injective := by
  intro stage stage' h
  cases stage <;> cases stage' <;> first | rfl | exact absurd h (by decide)

/-- The gauges of a process that has been started. -/
def Gauges.zero : Gauges := ⟨0, fun _ => none, fun _ => none, ⟨0, 0, 0, 0, 0, 0, 0, 0⟩⟩

/-- Of two shards one is connected, and the other reports nothing; a role is cached. -/
def oneConnected : Seen where
  clusters := [[some ⟨0, "Connected", [40]⟩, none]]
  stats := .ok ⟨0, 0, 0, 1, 0, 0, 0, 0⟩

/-- The first round of a process shows the shard and the role. -/
theorem gauges_after_one : ∃ counts : Stage → ℕ, counts .connected = 1 ∧
    (STAGES.map counts).sum = 1 ∧
    (metricsRound Stage.text .zero oneConnected).gatewayStatuses "Connected" = some (counts .connected) ∧
    ∃ issued : List (Cmd Item × Store Item),
      (metricsRound Stage.text .zero oneConnected).state.ReadBy issued := by
  have hrun : ((ExceptT.run (getStateStats : Api Item StateStats)).run exec
      (putAll Json.plain [(roleKey (.of 1) (.of 3), .role ⟨.of 3, ""⟩)] Store.empty)).1 =
        oneConnected.stats := by decide +kernel
  obtain ⟨issued, hissued⟩ := Prog.issues_run exec (ExceptT.run getStateStats)
    (putAll Json.plain [(roleKey (.of 1) (.of 3), .role ⟨.of 3, ""⟩)] Store.empty)
  rw [hrun] at hissued
  have hstages : ∀ report ∈ oneConnected.reports, ∃ stage, report.stage = Stage.text stage := by
    intro report hreport
    obtain rfl := List.mem_singleton.mp hreport
    exact ⟨.connected, rfl⟩
  obtain ⟨-, ⟨counts, hcounts, hcount, hsum⟩, -, -, hread⟩ :=
    gauges_after Stage.text_injective .zero [] hissued hstages
  exact ⟨counts, (hcount .connected).trans (by decide), hsum, hcounts .connected, issued, hread⟩

end TwilightDispatch
