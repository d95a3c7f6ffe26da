import TwilightDispatch.EventOrder
import TwilightDispatch.Frame
import TwilightDispatch.OldValue
import TwilightDispatch.Reported

/-!
# Joins and leaves

A join is counted for a guild that is created when no value was stored for the guild. Every event
about a guild leaves a value for it, except that its deletion removes it, an outage included. So
the counts are right as long as a value is stored for exactly the guilds the bot is a member of
(`counts_joins_iff`).
-/

namespace TwilightDispatch

open Atomic Redis

variable {T V : Type} {J : Json T V} {P : PayloadJson V} {cfg : Config} {botId : Id .user}
  {s s' : Store T} {events : List Received} {item : Received} {g : Id .guild}

/-! ## Sequential runs -/

/-- The commands for an event are executed after those for the events before it. -/
def Sequential (log : List (Issue T)) : Prop := (log.map Issue.position).Pairwise (· ≤ ·)

instance (log : List (Issue T)) : Decidable (Sequential log) :=
  inferInstanceAs (Decidable ((log.map Issue.position).Pairwise (· ≤ ·)))

/-- What is reported for an event, handled alone. -/
theorem Received.run_prog_fst (hen : cfg.stateEnabled = true)
    (hpayload : item.event.kind ≠ .shardPayload) (hready : item.event.kind ≠ .ready) :
    ((item.prog J P cfg botId).run exec s).1 =
      match (Fallible.run exec (update J cfg botId item.env item.event) s).1 with
      | .ok value => item.report P value
      | .error (.error _) => item.report P none
      | .error .panic => [] := by
  have hloop : item.inLoop cfg = false := by simp [Received.inLoop, hready]
  have htask : item.inTask cfg = true := by simp [Received.inTask, hen, hpayload, hready]
  unfold Received.prog Received.task
  rw [hloop, if_neg Bool.false_ne_true, if_pos htask, Prog.run_bind]
  have hrun : Fallible.run exec (update J cfg botId item.env item.event) s =
      (item.cacheUpdate J cfg botId).run exec s := rfl
  rw [hrun]
  rcases (item.cacheUpdate J cfg botId).run exec s with ⟨(_ | _) | _, s'⟩ <;> rfl

/-- In a sequential run, what is reported for an event is what its program returns after those of the
events before it. -/
theorem Outgoing.Run.sentBy_of_sequential {log : List (Issue T)} {o : Outgoing T V}
    (hrun : Outgoing.Run J P cfg botId (.start events) s log o s') (hfin : o.finished = true)
    (hseq : Sequential log) (hen : cfg.stateEnabled = true) {i : ℕ} (hi : events[i]? = some item) :
    o.sentBy i =
      ((item.prog J P cfg botId).run exec (inSequence J cfg botId (events.take i) s)).1 := by
  obtain ⟨as, hret, has⟩ := hrun.interleave hfin
  have hpool : Outgoing.pool J P cfg botId (.start events) =
      events.map (Received.prog J P cfg botId) := rfl
  rw [hpool] at has
  have hserial := has.serial (R := fun _ => Set.univ) (fun _ p _ => confined_univ (cells T) p)
    (hseq.imp Or.inl) trivial
  have hresult : (runAll exec (events.map (Received.prog J P cfg botId)) s).1[i]? = _ :=
    getElem?_runAll _ s i
  rw [hserial, List.getElem?_map, hi, ← List.map_take, runAll_progs hen] at hresult
  have hitem : o.items[i]? = some item := by rwa [hrun.items]
  obtain ⟨t, ht, -, hdone⟩ := Outgoing.task_of_finished hfin hitem
  obtain ⟨effects, hprog, hsent⟩ := hrun.accounted.sentBy_of_finished ht hdone
  have hp : (Outgoing.pool J P cfg botId o)[i]? = some t.prog := getElem?_pool_task ht
  rw [hret, List.getElem?_map, hresult, hprog] at hp
  exact hsent.trans (Prog.ret.inj (Option.some.inj hp)).symm

/-! ## Members and stored guilds -/

/-- Whether the bot is a member of the guild after an event. -/
def Event.joinsGuild (g : Id .guild) (member : Bool) : Event → Bool
  | ready data => member || data.guilds.any fun guild => guild.id = g
  | guildCreate data => member || data.id = g
  | guildDelete data => member && (data.id ≠ g || data.unavailable)
  | _ => member

/-- Whether a value is stored for the guild after an event. -/
def Event.storesGuild (g : Id .guild) (stored : Bool) : Event → Bool
  | ready data => stored || data.guilds.any fun guild => guild.id = g
  | guildCreate data => stored || data.id = g
  | guildUpdate data => stored || data.id = g
  | unavailableGuild data => stored || data.id = g
  | guildDelete data => stored && data.id ≠ g
  | _ => stored

def memberAfter (events : List Received) (g : Id .guild) : Bool :=
  events.foldl (fun member item => item.event.joinsGuild g member) false

def storedAfter (events : List Received) (g : Id .guild) : Bool :=
  events.foldl (fun stored item => item.event.storesGuild g stored) false

/-! ## What is stored for a guild -/

/-- A created guild sets deadlines that are not dates. -/
def createPanics (cfg : Config) (env : Env) (data : Guild) : Bool :=
  cfg.stateMember && !data.members.isEmpty &&
    (env.now.add (milliseconds (asI64 cfg.stateMemberTtl))).isNone

theorem isNone_deadlines (now : FormattedDateTime) (ttl : UInt64) (keys : List String) :
    (deadlines J now (keys.map (·, ttl))).isNone =
      (!keys.isEmpty && (now.add (milliseconds (asI64 ttl))).isNone) := by
  induction keys with
  | nil => rfl
  | cons key keys ih =>
    rw [List.map_cons, deadlines_cons]
    cases hadd : now.add (milliseconds (asI64 ttl)) with
    | none => rfl
    | some d =>
      rw [hadd] at ih
      simpa using ih

variable (cfg botId) in
/-- The creation of a guild clears it and stores its items, and returns the value that was stored for
it, unless it panics. -/
theorem Indexed.run_guildCreate {ok : Entity → Prop} (hi : Indexed s) (hk : Known J ok s)
    (hJ : J.Lawful) (env : Env) (data : Guild) : ∃ old s',
      Fallible.run exec (update J cfg botId env (.guildCreate data)) s =
        (if createPanics cfg env data then .error .panic else .ok old, s') ∧
      s'.strings = (putAll J (guildItems cfg botId data) (cleared env.orders data.id s)).strings ∧
      (s.strings (guildKey data.id)).map J.value = old.map .ok := by
  obtain ⟨old, hclear, hold⟩ := hi.run_clearGuild hk hJ env.orders data.id
  have hpanics : createPanics cfg env data = (cfg.stateMember && (deadlines J env.now
      (data.members.map fun member =>
        (memberKey data.id member.user.id, cfg.stateMemberTtl))).isNone) := by
    have hnone := isNone_deadlines (J := J) env.now cfg.stateMemberTtl
      (data.members.map fun member => memberKey data.id member.user.id)
    rw [List.map_map, List.isEmpty_map] at hnone
    unfold createPanics
    rw [Bool.and_assoc, ← hnone]
    rfl
  refine ⟨old, ?_⟩
  rw [hpanics]
  have hup : update J cfg botId env (.guildCreate data) = (do
      let old ← clearGuild J.value env.orders data.id
      setAll J env.orders (guildItems cfg botId data)
      if cfg.stateMember then
        expireAll J env.now
          (data.members.map fun member => (memberKey data.id member.user.id, cfg.stateMemberTtl))
      return old) := rfl
  rw [hup, Fallible.run_bind_ok hclear, Fallible.run_bind_ok (run_setAll _)]
  cases cfg.stateMember with
  | false => exact ⟨_, rfl, rfl, hold⟩
  | true =>
    simp only [if_true, Bool.true_and]
    rw [Fallible.run_bind, run_expireAll]
    cases deadlines J env.now _ with
    | none => exact ⟨_, rfl, rfl, hold⟩
    | some fields => exact ⟨_, rfl, rfl, hold⟩

theorem has_guildKey_guildItems (s : Store T) (data : Guild) :
    (putAll J (guildItems cfg botId data) s).Has (guildKey data.id) := by
  rw [has_putAll]
  refine .inr ⟨(guildKey data.id, _), List.mem_append_right _ List.mem_cons_self, ?_⟩
  exact newKey_stored (.guild data.id)

theorem has_guildKey_update {ok : Entity → Prop} (hi : Indexed s) (hk : Known J ok s)
    (hJ : J.Lawful) (env : Env) (event : Event) {stored : Bool}
    (h : s.Has (guildKey g) ↔ stored = true) :
    (Fallible.run exec (update J cfg botId env event) s).2.Has (guildKey g) ↔
      event.storesGuild g stored = true := by
  have hkey : ∀ g' : Id .guild, newKey (guildKey g') = guildKey g' := fun g' =>
    newKey_stored (.guild g')
  by_cases htouch : event.Touches (.guild g)
  · cases event with
    | guildCreate data =>
      obtain rfl : data.id = g := by simpa [Event.Touches, Entity.guildOf, eq_comm] using htouch
      obtain ⟨old, s', hrun, hs, -⟩ := hi.run_guildCreate cfg botId hk hJ env data
      have hhas : (putAll J (guildItems cfg botId data) (cleared env.orders data.id s)).Has
          (guildKey data.id) := has_guildKey_guildItems _ data
      rw [hrun]
      unfold Store.Has at hhas ⊢
      simpa [Event.storesGuild, hs] using hhas
    | guildDelete data =>
      obtain rfl : g = data.id := Entity.guild.inj htouch
      obtain ⟨old, hclear, -⟩ := hi.run_clearGuild hk hJ env.orders data.id
      have hrun : Fallible.run exec (update J cfg botId env (.guildDelete data)) s =
        (.ok old, cleared env.orders data.id s) := hclear
      rw [hrun]
      simp [Event.storesGuild, cleared, hkey]
    | guildUpdate data =>
      obtain rfl : g = data.id := Entity.guild.inj htouch
      obtain ⟨old, hget⟩ := getOld_ok cfg hk hJ (guildKey data.id)
      have hrun : Fallible.run exec (update J cfg botId env (.guildUpdate data)) s =
          (.ok old, putAll J [(guildKey data.id, .partialGuild data)] s) :=
        (Fallible.run_bind_ok hget).trans (Fallible.run_bind_ok (run_set _ _))
      rw [hrun]
      simp [Event.storesGuild, hkey]
    | unavailableGuild data =>
      obtain rfl : g = data.id := Entity.guild.inj htouch
      obtain ⟨old, hclear, -⟩ := hi.run_clearGuild hk hJ env.orders data.id
      have hrun : Fallible.run exec (update J cfg botId env (.unavailableGuild data)) s =
          (.ok old, putAll J [(guildKey data.id, .unavailableGuild data)]
            (cleared env.orders data.id s)) :=
        (Fallible.run_bind_ok hclear).trans (Fallible.run_bind_ok (run_set _ _))
      rw [hrun]
      simp [Event.storesGuild, hkey]
    | ready data =>
      obtain ⟨guild, hguild, heq⟩ : ∃ guild ∈ data.guilds, g = guild.id := by
        simpa [Event.Touches] using htouch
      have hrun : Fallible.run exec (update J cfg botId env (.ready data)) s =
          (.ok none, putAll J (data.guilds.map fun guild =>
            (guildKey guild.id, .unavailableGuild guild))
              (putAll J [(BOT_USER_KEY, .currentUser data.user)] s)) :=
        (Fallible.run_bind_ok (run_set _ _)).trans (Fallible.run_bind_ok (run_setAll _))
      rw [hrun]
      refine iff_of_true (has_putAll.mpr (.inr ?_)) ?_
      · refine ⟨(guildKey guild.id, .unavailableGuild guild), List.mem_map_of_mem hguild, ?_⟩
        rw [heq]
        exact hkey guild.id
      · refine Bool.or_eq_true_iff.mpr (.inr (List.any_eq_true.mpr ⟨guild, hguild, ?_⟩))
        exact decide_eq_true heq.symm
    | _ => simp [Event.Touches] at htouch
  · have hguild : (Entity.guild g).kind ≠ CHANNEL_KEY := (by decide : GUILD_KEY ≠ CHANNEL_KEY)
    have hsame : (Fallible.run exec (update J cfg botId env event) s).2.strings (guildKey g) =
        s.strings (guildKey g) :=
      strings_update_elsewhere (e := .guild g) hi hguild (fun e he _ heq => htouch (heq ▸ he))
        (by rintro _ _ ⟨⟩)
    have hstores : event.storesGuild g stored = stored := by
      cases event with
      | guildCreate data =>
        have hne : data.id ≠ g := fun heq => htouch (.inl (heq ▸ rfl))
        simp [Event.storesGuild, hne]
      | guildDelete data | guildUpdate data | unavailableGuild data =>
        have hne : data.id ≠ g := fun heq => htouch (congrArg Entity.guild heq.symm)
        simp [Event.storesGuild, hne]
      | ready data =>
        have hne : ∀ guild ∈ data.guilds, guild.id ≠ g := fun guild hmem heq =>
          htouch (.inr ⟨guild, hmem, congrArg Entity.guild heq.symm⟩)
        simpa [Event.storesGuild] using fun guild hmem heq => absurd heq (hne guild hmem)
      | _ => rfl
    unfold Store.Has at h ⊢
    rw [hsame, hstores]
    exact h

/-! ## Counting -/

/-- Handling events one after another is a run of the cache. -/
theorem inSequence_empty (events : List Received) : inSequence J cfg botId events Store.empty =
    stateAfter J cfg botId (events.map fun item => ⟨item.env, .event item.event⟩) := by
  unfold inSequence stateAfter
  rw [List.foldl_map]
  simp only [Step.next_event]

theorem indexed_inSequence (events : List Received) :
    Indexed (inSequence J cfg botId events Store.empty) := by
  rw [inSequence_empty]
  exact (Indexed.stable (J := J) _).stateAfter .empty fun step _ => step.ok_true

variable (cfg botId) in
theorem known_inSequence (events : List Received) :
    Known J (fun _ => True) (inSequence J cfg botId events Store.empty) := by
  rw [inSequence_empty]
  exact (Known.stable _).stateAfter .empty fun step _ => step.ok_true

variable (cfg botId) in
/-- A value is stored for the guilds that the events have stored. -/
theorem has_guildKey_inSequence (hJ : J.Lawful) (events : List Received) (g : Id .guild) :
    (inSequence J cfg botId events Store.empty).Has (guildKey g) ↔ storedAfter events g = true := by
  induction events using List.reverseRecOn with
  | nil => simp [inSequence, storedAfter]
  | append_singleton events item ih =>
    unfold inSequence storedAfter
    rw [List.foldl_append, List.foldl_append]
    exact has_guildKey_update (indexed_inSequence (J := J) events) (known_inSequence cfg botId events) hJ
      item.env item.event ih

section Count

variable {log : List (Issue T)} {o : Outgoing T V} {i : ℕ}

/-- What the creation of a guild is counted as. -/
theorem Outgoing.Run.sentBy_guildCreate (hJ : J.Lawful) (hen : cfg.stateEnabled = true)
    (hrun : Outgoing.Run J P cfg botId (.start events) Store.empty log o s')
    (hfin : o.finished = true) (hseq : Sequential log) (hi : events[i]? = some item) {data : Guild}
    (hevent : item.event = .guildCreate data) : o.sentBy i =
      if createPanics cfg item.env data || storedAfter (events.take i) data.id then []
      else [.guildEvent "Join"] := by
  rw [hrun.sentBy_of_sequential hfin hseq hen hi,
    Received.run_prog_fst hen (by rw [hevent]; nofun) (by rw [hevent]; nofun), hevent]
  obtain ⟨old, s₁, hup, -, hold⟩ := (indexed_inSequence (events.take i)).run_guildCreate cfg botId
    (known_inSequence cfg botId (events.take i)) hJ item.env data
  rw [hup]
  have hhas := has_guildKey_inSequence cfg botId hJ (events.take i) data.id
  rcases createPanics cfg item.env data with _ | _
  · have hreport : item.report P old = if old.isNone then [.guildEvent "Join"] else [] := by
      simp [Received.report, hevent]
    have hnone : old.isNone = !storedAfter (events.take i) data.id := by
      unfold Store.Has at hhas
      rcases hs : (inSequence J cfg botId (events.take i) Store.empty).strings (guildKey data.id)
        with _ | t <;> rcases old with _ | v <;> simp_all
    change item.report P old = _
    rw [hreport, hnone]
    cases storedAfter (events.take i) data.id <;> rfl
  · rfl

/-- What the deletion of a guild is counted as. -/
theorem Outgoing.Run.sentBy_guildDelete (hJ : J.Lawful) (hen : cfg.stateEnabled = true)
    (hrun : Outgoing.Run J P cfg botId (.start events) Store.empty log o s')
    (hfin : o.finished = true) (hseq : Sequential log) (hi : events[i]? = some item)
    {data : GuildDelete} (hevent : item.event = .guildDelete data) :
    o.sentBy i = if data.unavailable then [] else [.guildEvent "Leave"] := by
  rw [hrun.sentBy_of_sequential hfin hseq hen hi,
    Received.run_prog_fst hen (by rw [hevent]; nofun) (by rw [hevent]; nofun), hevent]
  obtain ⟨old, hclear, -⟩ := (indexed_inSequence (events.take i)).run_clearGuild
    (known_inSequence cfg botId (events.take i)) hJ item.env.orders data.id
  have hup : Fallible.run exec (update J cfg botId item.env (.guildDelete data))
    (inSequence J cfg botId (events.take i) Store.empty) = _ := hclear
  rw [hup]
  change item.report P old = _
  cases hdata : data.unavailable <;> simp [Received.report, hevent, hdata]

end Count

/-- Every creation of a guild is counted as a join if the bot was not a member before, and every
deletion as a leave if it is not an outage. -/
def CountsJoins (events : List Received) (o : Outgoing T V) : Prop :=
  ∀ i item, events[i]? = some item →
    (∀ data, item.event = .guildCreate data → o.sentBy i =
      if memberAfter (events.take i) data.id then [] else [.guildEvent "Join"]) ∧
    ∀ data, item.event = .guildDelete data → o.sentBy i =
      if data.unavailable then [] else [.guildEvent "Leave"]

/-- **Joins and leaves are counted right** in a sequential run exactly if, whenever a guild is created,
a value is stored for it (or its update panics) if and only if the bot is a member of it. -/
theorem counts_joins_iff (hJ : J.Lawful) (hen : cfg.stateEnabled = true) {log : List (Issue T)}
    {o : Outgoing T V} (hrun : Outgoing.Run J P cfg botId (.start events) Store.empty log o s')
    (hfin : o.finished = true) (hseq : Sequential log) :
    CountsJoins events o ↔ ∀ i item data, events[i]? = some item → item.event = .guildCreate data →
      ((createPanics cfg item.env data = true ∨ storedAfter (events.take i) data.id = true) ↔
        memberAfter (events.take i) data.id = true) := by
  constructor
  · intro h i item data hi hevent
    have hcount := (h i item hi).1 data hevent
    rw [hrun.sentBy_guildCreate hJ hen hfin hseq hi hevent] at hcount
    rw [← Bool.or_eq_true_iff]
    generalize (createPanics cfg item.env data || storedAfter (events.take i) data.id) = b at hcount ⊢
    generalize memberAfter (events.take i) data.id = b' at hcount ⊢
    cases b <;> cases b' <;> simp at hcount ⊢
  · intro h i item hi
    refine ⟨fun data hevent => ?_, fun data hevent =>
      hrun.sentBy_guildDelete hJ hen hfin hseq hi hevent⟩
    rw [hrun.sentBy_guildCreate hJ hen hfin hseq hi hevent]
    have hiff := h i item data hi hevent
    rw [← Bool.or_eq_true_iff] at hiff
    exact if_congr hiff rfl rfl

/-- The bot is a member of guild 1 when it connects, the guild is deleted, and it is created again. -/
def guildReturns (unavailable : Bool) : List Received :=
  [⟨0, .ready ⟨⟨.of 9, ""⟩, [⟨.of 1, true⟩], ""⟩, .at (.of 0)⟩,
    ⟨0, .guildDelete ⟨.of 1, unavailable⟩, .at (.of 0)⟩,
    ⟨0, .guildCreate ⟨.of 1, "", [], [], [], [], [], [], ""⟩, .at (.of 0)⟩]

/-- The events are handled in turn, the deletion in `steps` steps. -/
def inTurn (steps : ℕ) : List Action :=
  [(.loop, 5), (.task 0, 1), (.loop, 1), (.task 1, steps), (.loop, 1), (.task 2, 7)].flatMap
    fun turn : Action × ℕ => List.replicate turn.2 turn.1

/-- The bot leaves the guild and joins it again. -/
theorem counts_joins_returns : ∃ log o s', Outgoing.Run Json.plain .empty .full (.of 9)
      (.start (guildReturns false)) Store.empty log o s' ∧
    o.sentBy 2 = [.guildEvent "Join"] ∧ CountsJoins (guildReturns false) o := by
  have h : (Outgoing.perform Json.plain .empty .full (.of 9) (inTurn 5)
      (.start (guildReturns false)) Store.empty).any (fun r => r.2.1.finished &&
        decide (Sequential r.1) && decide (r.2.1.sentBy 2 = [.guildEvent "Join"])) = true := by
    decide +kernel
  obtain ⟨⟨log, o, s'⟩, hr, h⟩ := (Option.any_eq_true _ _).mp h
  simp only [Bool.and_eq_true, decide_eq_true_eq] at h
  obtain ⟨⟨hfin, hseq⟩, hsent⟩ := h
  have hrun := Outgoing.run_of_perform hr
  refine ⟨log, o, s', hrun, hsent,
    (counts_joins_iff Json.plain_lawful rfl hrun hfin hseq).mpr ?_⟩
  rintro (_ | _ | _ | i) item data hi hevent <;> cases hi <;> cases hevent
  decide

/-- An outage of the guild is followed by a join. -/
theorem counts_joins_outage : ∃ log o s', Outgoing.Run Json.plain .empty .full (.of 9)
      (.start (guildReturns true)) Store.empty log o s' ∧ o.finished = true ∧ Sequential log ∧
    ¬ CountsJoins (guildReturns true) o := by
  have h : (Outgoing.perform Json.plain .empty .full (.of 9) (inTurn 4)
      (.start (guildReturns true)) Store.empty).any (fun r => r.2.1.finished &&
        decide (Sequential r.1) && decide (r.2.1.sentBy 2 = [.guildEvent "Join"])) = true := by
    decide +kernel
  obtain ⟨⟨log, o, s'⟩, hr, h⟩ := (Option.any_eq_true _ _).mp h
  simp only [Bool.and_eq_true, decide_eq_true_eq] at h
  obtain ⟨⟨hfin, hseq⟩, hsent⟩ := h
  refine ⟨log, o, s', Outgoing.run_of_perform hr, hfin, hseq, fun hcounts => ?_⟩
  have hcount := (hcounts 2 _ rfl).1 _ rfl
  exact absurd (hsent.symm.trans hcount) (by decide)

end TwilightDispatch
