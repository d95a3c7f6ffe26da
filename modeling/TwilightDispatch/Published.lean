import TwilightDispatch.Handler

/-!
# What is published

Every message of the exchange is the payload of an event of the stream, and it never carries an old
value: a payload comes as an event of its own, whose task does not update the cache, while the old
value is found by the task of the decoded event, which publishes nothing
(`Outgoing.Run.published_old`).
-/

namespace TwilightDispatch

open Atomic Redis

variable {T V : Type} {J : Json T V} {P : PayloadJson V} {cfg : Config} {botId : Id .user}

/-! ## Reports -/

/-- The effect is part of a report of the event. The report of a payload has no old value. -/
def Received.Reports (P : PayloadJson V) (item : Received) (effect : Effect) : Prop :=
  ∃ old, effect ∈ item.report P old ∧ (item.event.kind = .shardPayload → old = none)

theorem Received.task_returns (item : Received) :
    (item.task J P cfg botId : Prog (interface T) _).Returns
      fun effects => ∀ effect ∈ effects, item.Reports P effect := by
  by_cases hin : item.inTask cfg = true
  · have hkind : item.event.kind ≠ .shardPayload :=
      fun hk => Bool.false_ne_true (Received.inTask_of_payload hk ▸ hin)
    unfold Received.task
    rw [if_pos hin]
    refine Prog.Returns.bind fun r => ?_
    rcases r with (_ | _) | value
    · exact fun effect he => ⟨none, he, fun _ => rfl⟩
    · exact fun effect he => nomatch he
    · exact fun effect he => ⟨value, he, fun hk => absurd hk hkind⟩
  · rw [Received.task_of_inTask (eq_false_of_ne_true hin)]
    exact fun effect he => ⟨none, he, fun _ => rfl⟩

/-- The event is a payload that is published. -/
def Received.Publishes (P : PayloadJson V) (item : Received) : Prop :=
  ∃ bytes payload kind body, item.event = .shardPayload bytes ∧ P.fromSlice bytes = .ok payload ∧
    payload.t = some kind ∧ P.toVec { payload with old := none } = .ok body

/-- A published message is the payload of an event, without an old value. -/
theorem Received.Reports.publish {item : Received} {exchange kind : String} {body : List UInt8}
    (h : item.Reports P (.publish exchange kind body)) :
    ∃ bytes payload, item.event = .shardPayload bytes ∧ P.fromSlice bytes = .ok payload ∧
      exchange = EXCHANGE ∧ payload.t = some kind ∧
      P.toVec { payload with old := none } = .ok body := by
  obtain ⟨old, h, hold⟩ := h
  rcases item with ⟨shard, event, env⟩
  cases event with
  | shardPayload bytes =>
    obtain rfl := hold rfl
    simp only [Received.report] at h
    rcases hp : P.fromSlice bytes with _ | ⟨op, _ | t, d, old'⟩
    · simp [hp] at h
    · simp [hp] at h
    rcases hb : P.toVec ⟨op, some t, d, none⟩ with _ | body'
    · simp [hp, hb] at h
    · simp only [hp, hb, List.mem_cons, Effect.publish.injEq, reduceCtorEq, List.not_mem_nil,
        or_false, false_or] at h
      obtain ⟨rfl, rfl, rfl⟩ := h
      exact ⟨bytes, _, rfl, hp, rfl, rfl, hb⟩
  | guildCreate data =>
    simp only [Received.report] at h
    split_ifs at h <;> simp at h
  | guildDelete data =>
    simp only [Received.report] at h
    split_ifs at h <;> simp at h
  | _ => simp [Received.report] at h

/-! ## Tasks report their events -/

/-- What the tasks have reported, and what they will report. -/
structure Outgoing.Reporting (P : PayloadJson V) (o : Outgoing T V) : Prop where
  tasks : ∀ t ∈ o.tasks, t.prog.Returns fun effects => ∀ effect ∈ effects, t.item.Reports P effect
  sent : ∀ i effect, (i, effect) ∈ o.sent → ∃ t, o.tasks[i]? = some t ∧ t.item.Reports P effect

theorem Outgoing.Reporting.start (events : List Received) :
    Outgoing.Reporting P (.start events : Outgoing T V) where
  tasks _ ht := nomatch ht
  sent _ _ he := nomatch he

section Moves

variable {o o' : Outgoing T V} {s s' : Store T}

theorem getElem?_append_of_some {α : Type} {l l' : List α} {i : ℕ} {a : α} (h : l[i]? = some a) :
    (l ++ l')[i]? = some a := by
  rw [List.getElem?_append_left (List.getElem?_eq_some_iff.mp h).1, h]

/-- A task keeps its event. -/
theorem getElem?_set_task {tasks : List (Task T)} {i j : ℕ} {t u : Task T} (t' : Task T)
    (hi : tasks[i]? = some t) (ht : t'.item = t.item) (hj : tasks[j]? = some u) :
    ∃ u', (tasks.set i t')[j]? = some u' ∧ u'.item = u.item := by
  by_cases hij : i = j
  · subst hij
    obtain rfl := Option.some.inj (hi.symm.trans hj)
    exact ⟨t', List.getElem?_set_self (List.getElem?_eq_some_iff.mp hi).1, ht⟩
  · exact ⟨u, by rw [List.getElem?_set_ne hij, hj], rfl⟩

theorem Outgoing.Reporting.moves {issue : Option (ℕ × Cmd T)}
    (hm : Outgoing.Moves J P cfg botId o s issue o' s') (h : Outgoing.Reporting P o) :
    Outgoing.Reporting P o' := by
  obtain ⟨htasks, hsent⟩ := h
  have hspawn : ∀ (item : Received) (tasks : List (Task T)),
      (∀ t ∈ tasks, t.prog.Returns fun effects => ∀ effect ∈ effects, t.item.Reports P effect) →
      ∀ t ∈ tasks ++ [⟨item, item.task J P cfg botId, 0⟩],
        t.prog.Returns fun effects => ∀ effect ∈ effects, t.item.Reports P effect := by
    intro item tasks htasks t ht
    rcases List.mem_append.mp ht with ht | ht
    · exact htasks t ht
    · rw [List.mem_singleton.mp ht]
      exact item.task_returns
  cases hm with
  | receive => exact ⟨htasks, hsent⟩
  | command => exact ⟨htasks, hsent⟩
  | spawn =>
    refine ⟨hspawn _ _ htasks, fun i effect he => ?_⟩
    obtain ⟨t, ht, hr⟩ := hsent i effect he
    exact ⟨t, getElem?_append_of_some ht, hr⟩
  | updated =>
    refine ⟨hspawn _ _ htasks, fun i effect he => ?_⟩
    obtain ⟨t, ht, hr⟩ := hsent i effect he
    exact ⟨t, getElem?_append_of_some ht, hr⟩
  | @task i item c k n events loop tasks sent s hi =>
    refine ⟨fun t ht => ?_, fun j effect he => ?_⟩
    · rcases List.mem_or_eq_of_mem_set ht with ht | rfl
      · exact htasks t ht
      · exact htasks _ (List.mem_of_getElem? hi) _
    · obtain ⟨t, ht, hr⟩ := hsent j effect he
      obtain ⟨u, hu, hitem⟩ := getElem?_set_task ⟨item, k (exec c s).1, n⟩ hi rfl ht
      exact ⟨u, hu, hitem ▸ hr⟩
  | @effect i item effects n effect events loop tasks sent s hi heff =>
    refine ⟨fun t ht => ?_, fun j effect' he => ?_⟩
    · rcases List.mem_or_eq_of_mem_set ht with ht | rfl
      · exact htasks t ht
      · exact htasks ⟨item, .ret effects, n⟩ (List.mem_of_getElem? hi)
    · rcases List.mem_append.mp he with he | he
      · obtain ⟨t, ht, hr⟩ := hsent j effect' he
        obtain ⟨u, hu, hitem⟩ := getElem?_set_task ⟨item, .ret effects, n + 1⟩ hi rfl ht
        exact ⟨u, hu, hitem ▸ hr⟩
      · obtain ⟨rfl, rfl⟩ := Prod.mk.inj (List.mem_singleton.mp he)
        exact ⟨_, List.getElem?_set_self (List.getElem?_eq_some_iff.mp hi).1,
          htasks _ (List.mem_of_getElem? hi) effect' (List.mem_of_getElem? heff)⟩

end Moves

/-! ## Published messages -/

section Run

variable {events : List Received} {s s' : Store T} {log : List (Issue T)} {o : Outgoing T V}

/-- What a task has had an effect on belongs to the event at the position of the task. -/
theorem Outgoing.Run.reports
    (h : Outgoing.Run J P cfg botId (.start events) s log o s') {i : ℕ} {effect : Effect}
    (he : (i, effect) ∈ o.sent) : ∃ item, events[i]? = some item ∧ item.Reports P effect := by
  have hrep := h.invariant _ (fun _ _ _ _ _ hm ho => ho.moves hm) (Outgoing.Reporting.start events)
  obtain ⟨t, ht, hr⟩ := hrep.sent i effect he
  refine ⟨t.item, ?_, hr⟩
  have hitems : o.items = events := h.items
  rw [← hitems]
  unfold Outgoing.items
  rw [List.append_assoc]
  exact getElem?_append_of_some (by rw [List.getElem?_map, ht]; rfl)

/-- No published message carries an old value. -/
theorem Outgoing.Run.published_old (hP : P.Lawful)
    (h : Outgoing.Run J P cfg botId (.start events) s log o s') {i : ℕ} {exchange kind : String}
    {body : List UInt8} (he : (i, .publish exchange kind body) ∈ o.sent) :
    ∃ payload, P.fromSlice body = .ok payload ∧ payload.old = none := by
  obtain ⟨item, -, hr⟩ := h.reports he
  obtain ⟨bytes, payload, -, -, -, -, hb⟩ := hr.publish
  exact ⟨_, hP _ _ hb, rfl⟩

end Run

/-! ## Dispatches -/

/-- How twilight hands over the dispatches of the gateway: `pair i j` says that the events at the
positions `i` and `j` are the payload of one dispatch and its decoded event. -/
structure Dispatches (events : List Received) where
  pair : ℕ → ℕ → Prop
  payload : ∀ {i j}, pair i j → ∃ item, events[i]? = some item ∧ item.event.kind = .shardPayload
  decoded : ∀ {i j}, pair i j → ∃ item, events[j]? = some item ∧ item.event.kind ≠ .shardPayload
  left_unique : ∀ {i i' j}, pair i j → pair i' j → i = i'
  right_unique : ∀ {i j j'}, pair i j → pair i j' → j = j'

/-- A message has been published for the event at position `i`. -/
def Published (o : Outgoing T V) (i : ℕ) : Prop :=
  ∃ exchange kind body, (i, .publish exchange kind body) ∈ o.sent

/-- The event at position `j` has updated or deleted a cached object that it names, and `v` was the
value of the object. -/
def Displaced (J : Json T V) (events : List Received) (log : List (Issue T)) (j : ℕ) (v : V) :
    Prop :=
  ∃ item e issue t, events[j]? = some item ∧ item.event.Touches e ∧ issue ∈ log ∧
    issue.position = j ∧ issue.cmd.Replaces e.stored ∧ issue.before.strings e.stored = some t ∧
    J.value t = .ok v

/-- What is published for a dispatch carries the value its event has displaced. -/
def OldReaches (J : Json T V) (P : PayloadJson V) {events : List Received} (D : Dispatches events)
    (log : List (Issue T)) (o : Outgoing T V) : Prop :=
  ∀ i j v exchange kind body payload, D.pair i j → Displaced J events log j v →
    (i, .publish exchange kind body) ∈ o.sent → P.fromSlice body = .ok payload →
    payload.old = some v

/-- **The old value reaches the consumer** exactly if there is none: if no event of a published
dispatch has displaced a cached object. -/
theorem oldReaches_iff (hP : P.Lawful) {events : List Received} {s s' : Store T}
    {log : List (Issue T)} {o : Outgoing T V}
    (hrun : Outgoing.Run J P cfg botId (.start events) s log o s') (D : Dispatches events) :
    OldReaches J P D log o ↔
      ∀ i j v, D.pair i j → Published o i → ¬ Displaced J events log j v := by
  constructor
  · rintro h i j v hD ⟨exchange, kind, body, hsent⟩ hdis
    obtain ⟨payload, hbody, hnone⟩ := hrun.published_old hP hsent
    exact nomatch hnone.symm.trans (h i j v exchange kind body payload hD hdis hsent hbody)
  · intro h i j v exchange kind body payload hD hdis hsent _
    exact absurd hdis (h i j v hD ⟨exchange, kind, body, hsent⟩)

/-! ## The update of a role -/

def roleText (role : Role) : String :=
  "\x7b\"id\":\"" ++ toString role.id ++ "\",\"name\":\"" ++ role.extra ++ "\"\x7d"

/-- A JSON library whose values are texts, for roles. -/
def Json.roles : Json Item String where
  text i := i
  value | .role role => .ok (roleText role) | _ => .error ⟨"value"⟩
  channel := Json.plain.channel
  emoji := Json.plain.emoji
  member := Json.plain.member
  message := Json.plain.message
  timestamp := Json.plain.timestamp
  sessions := Json.plain.sessions
  shardsTotal := Json.plain.shardsTotal

/-- The payload of the update of role 3 of guild 1 to the name `new`. -/
def rolePayload (old : Option String) : PayloadInfo String where
  op := 0
  t := some "GUILD_ROLE_UPDATE"
  d := "\x7b\"guild_id\":\"1\",\"role\":" ++ roleText ⟨.of 3, "new"⟩ ++ "\x7d"
  old := old

def rolePayloadText (old : Option String) : List UInt8 :=
  ("\x7b\"op\":0,\"t\":\"GUILD_ROLE_UPDATE\",\"d\":" ++ (rolePayload old).d ++
    (match old with | some old => ",\"old\":" ++ old | none => "") ++ "\x7d").toUTF8.toList

/-- The JSON library on these payloads, with the old name `old` or without. -/
def PayloadJson.roles : PayloadJson String where
  fromSlice bytes :=
    if bytes = rolePayloadText none then .ok (rolePayload none)
    else if bytes = rolePayloadText (some (roleText ⟨.of 3, "old"⟩)) then
      .ok (rolePayload (some (roleText ⟨.of 3, "old"⟩)))
    else .error ⟨"payload"⟩
  toVec payload :=
    if payload = rolePayload none then .ok (rolePayloadText none)
    else if payload = rolePayload (some (roleText ⟨.of 3, "old"⟩)) then
      .ok (rolePayloadText (some (roleText ⟨.of 3, "old"⟩)))
    else .error ⟨"payload"⟩

theorem PayloadJson.roles_lawful : PayloadJson.roles.Lawful := by
  have hne : rolePayloadText (some (roleText ⟨.of 3, "old"⟩)) ≠ rolePayloadText none := by
    decide +kernel
  intro payload bytes h
  simp only [PayloadJson.roles] at h ⊢
  split_ifs at h with h₁ h₂
  · obtain rfl := Except.ok.inj h
    rw [if_pos rfl, h₁]
  · obtain rfl := Except.ok.inj h
    rw [if_neg hne, if_pos rfl, h₂]

/-- The payload of the update, and the update. -/
def roleDispatch : List Received :=
  [⟨0, .shardPayload (rolePayloadText none), .at (.of 0)⟩,
    ⟨0, .roleUpdate ⟨.of 1, ⟨.of 3, "new"⟩⟩, .at (.of 0)⟩]

def roleDispatches : Dispatches roleDispatch where
  pair i j := i = 0 ∧ j = 1
  payload := by
    rintro i j ⟨rfl, rfl⟩
    exact ⟨_, rfl, rfl⟩
  decoded := by
    rintro i j ⟨rfl, rfl⟩
    exact ⟨_, rfl, by decide⟩
  left_unique h h' := h.1.trans h'.1.symm
  right_unique h h' := h.2.trans h'.2.symm

/-- Both events are received, the payload is published, and the cache is updated. -/
def publishFirst : List Action :=
  [.loop, .loop] ++ List.replicate 2 (.task 0) ++ List.replicate 4 (.task 1)

theorem exists_publishFirst (s : Store Item) {p : List (Issue Item) → Bool}
    (h : (Outgoing.perform Json.roles .roles .full (.of 9) publishFirst (.start roleDispatch) s).any
      (fun r => r.2.1.sent.contains (0, .publish EXCHANGE "GUILD_ROLE_UPDATE" (rolePayloadText none))
        && p r.1) = true) :
    ∃ log o s', Outgoing.Run Json.roles .roles .full (.of 9) (.start roleDispatch) s log o s' ∧
      (0, .publish EXCHANGE "GUILD_ROLE_UPDATE" (rolePayloadText none)) ∈ o.sent ∧
      p log = true := by
  obtain ⟨⟨log, o, s'⟩, hr, h⟩ := (Option.any_eq_true _ _).mp h
  obtain ⟨hsent, hp⟩ := (Bool.and_eq_true _ _).mp h
  exact ⟨log, o, s', Outgoing.run_of_perform hr, List.contains_iff_mem.mp hsent, hp⟩

/-- The role is not cached before its update, so there is no old value to publish. -/
theorem oldReaches_created :
    ∃ log o s', Outgoing.Run Json.roles .roles .full (.of 9) (.start roleDispatch) Store.empty log o
        s' ∧ Published o 0 ∧ OldReaches Json.roles .roles roleDispatches log o := by
  obtain ⟨log, o, s', hrun, hsent, hlog⟩ := exists_publishFirst Store.empty (p := fun log =>
    log.all fun issue => (issue.before.strings (roleKey (.of 1) (.of 3))).isNone ||
      !decide (issue.cmd.Replaces (roleKey (.of 1) (.of 3)))) (by decide +kernel)
  refine ⟨log, o, s', hrun, ⟨_, _, _, hsent⟩, (oldReaches_iff PayloadJson.roles_lawful hrun _).mpr ?_⟩
  rintro i j v ⟨rfl, rfl⟩ - ⟨item, e, issue, t, hitem, he, hissue, -, hcmd, ht, -⟩
  obtain rfl := Option.some.inj hitem
  obtain rfl : e = .role (.of 1) (.of 3) := he
  have hnone := List.all_eq_true.mp hlog issue hissue
  change issue.before.strings (roleKey (.of 1) (.of 3)) = some t at ht
  change issue.cmd.Replaces (roleKey (.of 1) (.of 3)) at hcmd
  rw [ht, decide_eq_true hcmd] at hnone
  cases hnone

/-- The cached role is updated, and the published payload does not carry the old role. -/
theorem oldReaches_missed :
    let s := stateAfter Json.roles .full (.of 9)
      [⟨.at (.of 0), .event (.roleCreate ⟨.of 1, ⟨.of 3, "old"⟩⟩)⟩]
    ∃ log o s', Outgoing.Run Json.roles .roles .full (.of 9) (.start roleDispatch) s log o s' ∧
      ¬ OldReaches Json.roles .roles roleDispatches log o := by
  intro s
  obtain ⟨log, o, s', hrun, hsent, hlog⟩ := exists_publishFirst s (p := fun log =>
    log.any fun issue => issue.position == 1 &&
      decide (issue.cmd.Replaces (roleKey (.of 1) (.of 3))) &&
      (issue.before.strings (roleKey (.of 1) (.of 3))).any fun item =>
        (Json.roles.value item).toOption.isSome) (by decide +kernel)
  refine ⟨log, o, s', hrun, fun h => ?_⟩
  obtain ⟨⟨position, cmd, before⟩, hissue, hp⟩ := List.any_eq_true.mp hlog
  simp only [Bool.and_eq_true, beq_iff_eq] at hp
  obtain ⟨⟨rfl, hcmd⟩, hbefore⟩ := hp
  have hreplaces : cmd.Replaces (roleKey (.of 1) (.of 3)) := of_decide_eq_true hcmd
  obtain ⟨role, hrole⟩ : ∃ role, before.strings (roleKey (.of 1) (.of 3)) = some (.role role) := by
    obtain ⟨t, ht, hvalue⟩ := (Option.any_eq_true _ _).mp hbefore
    cases t with
    | role role => exact ⟨role, ht⟩
    | _ => cases hvalue
  have hdis : Displaced Json.roles roleDispatch log 1 (roleText role) :=
    ⟨_, .role (.of 1) (.of 3), _, _, rfl, rfl, hissue, rfl, hreplaces, hrole, rfl⟩
  obtain ⟨payload, hbody, hnone⟩ := hrun.published_old PayloadJson.roles_lawful hsent
  exact nomatch hnone.symm.trans (h 0 1 _ _ _ _ payload ⟨rfl, rfl⟩ hdis hsent hbody)

end TwilightDispatch
