import TwilightDispatch.Run

/-!
# The event handler

`handler::outgoing` as a machine. The loop takes one event after another off its stream; it updates
the cache for a ready event itself and spawns a task for every event, which updates the cache for
every other event and then reports the event: it counts it or publishes it. The tasks and the loop
share the connection to Redis, and one `Action` lets one of them do the next thing: receive an
event, execute a Redis command, or have an effect outside Redis.

As far as Redis is concerned a call is an interleaving of one program for each event
(`Outgoing.Run.interleave`).
-/

namespace TwilightDispatch

open Atomic Redis

variable {T V : Type}

/-! ## Payloads -/

/-- A gateway payload, with the old value that is published along with it. -/
structure PayloadInfo (V : Type) where
  op : ℕ
  t : Option String
  d : V
  old : Option V
  deriving DecidableEq

/-- The JSON library on payloads. -/
structure PayloadJson (V : Type) where
  fromSlice : List UInt8 → Except SimdJsonError (PayloadInfo V)
  toVec : PayloadInfo V → Except SimdJsonError (List UInt8)

/-- What is written reads back as what it was. -/
def PayloadJson.Lawful (P : PayloadJson V) : Prop :=
  ∀ payload bytes, P.toVec payload = .ok bytes → P.fromSlice bytes = .ok payload

/-- The library that reads and writes nothing. -/
def PayloadJson.empty : PayloadJson V where
  fromSlice _ := .error ⟨"payload"⟩
  toVec _ := .error ⟨"payload"⟩

/-! ## Effects outside Redis -/

inductive Effect where
  | gatewayEvent (kind shard : String)
  | shardEvent (kind : String)
  | guildEvent (kind : String)
  | publish (exchange kind : String) (payload : List UInt8)
  deriving DecidableEq

/-- An event of the stream, with the number of its shard and what the update of the cache observes
of its surroundings. -/
structure Received where
  shard : ℕ
  event : Event
  env : Env

/-- What `outgoing` does with an event besides updating the cache. -/
def Received.report (P : PayloadJson V) (item : Received) (old : Option V) : List Effect :=
  match item.event with
  | .ready _ => [.shardEvent "Ready"]
  | .resumed => [.shardEvent "Resumed"]
  | .shardConnected => [.shardEvent "Connected"]
  | .shardConnecting _ => [.shardEvent "Connecting"]
  | .shardDisconnected _ => [.shardEvent "Disconnected"]
  | .shardIdentifying => [.shardEvent "Identifying"]
  | .shardReconnecting => [.shardEvent "Reconnecting"]
  | .shardResuming _ => [.shardEvent "Resuming"]
  | .guildCreate _ => if old.isNone then [.guildEvent "Join"] else []
  | .guildDelete data => if !data.unavailable then [.guildEvent "Leave"] else []
  | .shardPayload bytes =>
    match P.fromSlice bytes with
    | .ok payload =>
      match payload.t with
      | some kind =>
        .gatewayEvent kind (toString item.shard) ::
          match P.toVec { payload with old := old } with
          | .ok payload => [.publish EXCHANGE kind payload]
          | .error _ => []
      | none => []
    | .error _ => []
  | _ => []

/-! ## Tasks -/

section Programs

variable (J : Json T V) (P : PayloadJson V) (cfg : Config) (botId : Id .user)

/-- The update of the cache for an event. -/
def Received.cacheUpdate (item : Received) : Prog (interface T) (Except Failure (Option V)) :=
  ExceptT.run (update J cfg botId item.env item.event)

/-- Whether the loop itself updates the cache for the event. -/
def Received.inLoop (item : Received) : Bool :=
  cfg.stateEnabled && item.event.kind = .ready

/-- Whether the task spawned for the event updates the cache. -/
def Received.inTask (item : Received) : Bool :=
  cfg.stateEnabled && item.event.kind ≠ .shardPayload && item.event.kind ≠ .ready

/-- The task spawned for an event: it updates the cache and returns what it has left to do. -/
def Received.task (item : Received) : Prog (interface T) (List Effect) :=
  if item.inTask cfg then do
    match ← item.cacheUpdate J cfg botId with
    | .ok value => return item.report P value
    | .error (.error _) => return item.report P none
    -- a panic ends the task, and nothing is reported
    | .error .panic => return []
  else return item.report P none

end Programs

section Programs

variable {J : Json T V} {P : PayloadJson V} {cfg : Config} {botId : Id .user} {item : Received}

theorem Received.task_of_inTask (h : item.inTask cfg = false) :
    item.task J P cfg botId = .ret (item.report P none) := if_neg (Bool.eq_false_iff.mp h)

theorem Received.inTask_of_inLoop (h : item.inLoop cfg = true) : item.inTask cfg = false := by
  have hkind : item.event.kind = .ready := by
    simpa using (Bool.and_eq_true_iff.mp h).2
  simp [Received.inTask, hkind]

theorem Received.inTask_of_payload (h : item.event.kind = .shardPayload) :
    item.inTask cfg = false := by
  simp [Received.inTask, h]

end Programs

/-- A spawned task: its event, the rest of its program, and the number of its effects so far. -/
structure Task (T : Type) where
  item : Received
  prog : Prog (interface T) (List Effect)
  done : ℕ

/-- What the loop does: it waits for an event, or it updates the cache for one. -/
inductive Loop (T V : Type) where
  | waiting
  | updating (item : Received) (prog : Prog (interface T) (Except Failure (Option V)))

/-- One call of `outgoing`: what its stream has left, its loop, the tasks it has spawned, and the
effects of the tasks so far, each with the index of its task. -/
structure Outgoing (T V : Type) where
  events : List Received
  loop : Loop T V
  tasks : List (Task T)
  sent : List (ℕ × Effect)

/-- Before the first event. -/
def Outgoing.start (events : List Received) : Outgoing T V := ⟨events, .waiting, [], []⟩

/-! ## Actions -/

/-- Who does the next thing. -/
inductive Action where
  | loop
  | task (i : ℕ)
  deriving DecidableEq

section Step

variable (J : Json T V) (P : PayloadJson V) (cfg : Config) (botId : Id .user)

/-- The loop spawns the task of an event and waits for the next one. -/
def Outgoing.spawn (o : Outgoing T V) (item : Received) : Outgoing T V :=
  { o with loop := .waiting, tasks := o.tasks ++ [⟨item, item.task J P cfg botId, 0⟩] }

def Outgoing.step (o : Outgoing T V) (s : Store T) : Action → Option (Outgoing T V × Store T)
  | .loop =>
    match o.loop with
    | .waiting =>
      match o.events with
      | [] => none
      | item :: events =>
        if item.inLoop cfg then
          some ({ o with events := events, loop := .updating item (item.cacheUpdate J cfg botId) }, s)
        else some (Outgoing.spawn J P cfg botId { o with events := events } item, s)
    | .updating item (.cmd c k) =>
      some ({ o with loop := .updating item (k (exec c s).1) }, (exec c s).2)
    -- the result of the update is only logged
    | .updating item (.ret _) => some (Outgoing.spawn J P cfg botId o item, s)
  | .task i =>
    match o.tasks[i]? with
    | none => none
    | some ⟨item, .cmd c k, done⟩ =>
      some ({ o with tasks := o.tasks.set i ⟨item, k (exec c s).1, done⟩ }, (exec c s).2)
    | some ⟨item, .ret effects, done⟩ =>
      match effects[done]? with
      | none => none
      | some effect => some ({ o with
          tasks := o.tasks.set i ⟨item, .ret effects, done + 1⟩, sent := o.sent ++ [(i, effect)] }, s)

/-- The Redis command an action executes, with the position of its event in the stream. -/
def Outgoing.issued (o : Outgoing T V) : Action → Option (ℕ × Cmd T)
  | .loop =>
    match o.loop with
    | .updating _ (.cmd c _) => some (o.tasks.length, c)
    | _ => none
  | .task i =>
    match o.tasks[i]? with
    | some ⟨_, .cmd c _, _⟩ => some (i, c)
    | _ => none

/-- What an action does, by cases. -/
inductive Outgoing.Moves : Outgoing T V → Store T → Option (ℕ × Cmd T) → Outgoing T V → Store T → Prop
  | receive {item events tasks sent s} (h : item.inLoop cfg = true) :
      Moves ⟨item :: events, .waiting, tasks, sent⟩ s none
        ⟨events, .updating item (item.cacheUpdate J cfg botId), tasks, sent⟩ s
  | spawn {item events tasks sent s} (h : item.inLoop cfg = false) :
      Moves ⟨item :: events, .waiting, tasks, sent⟩ s none
        ⟨events, .waiting, tasks ++ [⟨item, item.task J P cfg botId, 0⟩], sent⟩ s
  | command {item c k events tasks sent s} :
      Moves ⟨events, .updating item (.cmd c k), tasks, sent⟩ s (some (tasks.length, c))
        ⟨events, .updating item (k (exec c s).1), tasks, sent⟩ (exec c s).2
  | updated {item r events tasks sent s} :
      Moves ⟨events, .updating item (.ret r), tasks, sent⟩ s none
        ⟨events, .waiting, tasks ++ [⟨item, item.task J P cfg botId, 0⟩], sent⟩ s
  | task {i item c k n events loop tasks sent s} (h : tasks[i]? = some ⟨item, .cmd c k, n⟩) :
      Moves ⟨events, loop, tasks, sent⟩ s (some (i, c))
        ⟨events, loop, tasks.set i ⟨item, k (exec c s).1, n⟩, sent⟩ (exec c s).2
  | effect {i item effects n effect events loop tasks sent s}
      (h : tasks[i]? = some ⟨item, .ret effects, n⟩) (he : effects[n]? = some effect) :
      Moves ⟨events, loop, tasks, sent⟩ s none
        ⟨events, loop, tasks.set i ⟨item, .ret effects, n + 1⟩, sent ++ [(i, effect)]⟩ s

variable {J P cfg botId}

theorem Outgoing.moves_of_step {o o' : Outgoing T V} {s s' : Store T} {action : Action}
    (h : Outgoing.step J P cfg botId o s action = some (o', s')) :
    Outgoing.Moves J P cfg botId o s (o.issued action) o' s' := by
  obtain ⟨events, loop, tasks, sent⟩ := o
  cases action with
  | loop =>
    rcases loop with _ | ⟨item, r | ⟨c, k⟩⟩
    · rcases events with _ | ⟨item, events⟩
      · cases h
      · simp only [Outgoing.step] at h
        split_ifs at h with hin
        · cases h
          exact .receive hin
        · cases h
          exact .spawn (eq_false_of_ne_true hin)
    · cases h
      exact .updated
    · cases h
      exact .command
  | task i =>
    simp only [Outgoing.step] at h
    rcases hi : tasks[i]? with _ | ⟨item, effects | ⟨c, k⟩, n⟩
    · simp [hi] at h
    · simp only [hi] at h
      rcases he : effects[n]? with _ | effect
      · simp [he] at h
      · simp only [he, Option.some.injEq, Prod.mk.injEq] at h
        obtain ⟨rfl, rfl⟩ := h
        have hissued : Outgoing.issued (V := V) ⟨events, loop, tasks, sent⟩ (.task i) = none := by
          simp [Outgoing.issued, hi]
        rw [hissued]
        exact .effect hi he
    · simp only [hi, Option.some.injEq, Prod.mk.injEq] at h
      obtain ⟨rfl, rfl⟩ := h
      have hissued : Outgoing.issued (V := V) ⟨events, loop, tasks, sent⟩ (.task i) =
          some (i, c) := by
        simp [Outgoing.issued, hi]
      rw [hissued]
      exact .task hi

end Step

/-! ## Runs -/

/-- A Redis command of a run: the position of its event in the stream, the command, and the store
in which it was executed. -/
structure Issue (T : Type) where
  position : ℕ
  cmd : Cmd T
  before : Store T

section Run

variable (J : Json T V) (P : PayloadJson V) (cfg : Config) (botId : Id .user)

/-- `Outgoing.Run o s log o' s'`: actions lead from `o` and `s` to `o'` and `s'`, and `log` lists
the Redis commands they execute. -/
inductive Outgoing.Run : Outgoing T V → Store T → List (Issue T) → Outgoing T V → Store T → Prop
  | refl (o : Outgoing T V) (s : Store T) : Run o s [] o s
  | step {o o' o'' : Outgoing T V} {s s' s'' : Store T} {log : List (Issue T)} (action : Action)
      (h : Outgoing.step J P cfg botId o s action = some (o', s')) (rest : Run o' s' log o'' s'') :
      Run o s (((o.issued action).map fun (i, c) => ⟨i, c, s⟩).toList ++ log) o'' s''

variable {J P cfg botId}

theorem Outgoing.Run.trans {o o' o'' : Outgoing T V} {s s' s'' : Store T} {log log' : List (Issue T)}
    (h : Outgoing.Run J P cfg botId o s log o' s')
    (h' : Outgoing.Run J P cfg botId o' s' log' o'' s'') :
    Outgoing.Run J P cfg botId o s (log ++ log') o'' s'' := by
  induction h with
  | refl => exact h'
  | step action hstep _ ih =>
    rw [List.append_assoc]
    exact .step action hstep (ih h')

theorem Outgoing.Run.snoc {o o' o'' : Outgoing T V} {s s' s'' : Store T} {log : List (Issue T)}
    (h : Outgoing.Run J P cfg botId o s log o' s') (action : Action)
    (hstep : Outgoing.step J P cfg botId o' s' action = some (o'', s'')) :
    Outgoing.Run J P cfg botId o s
      (log ++ ((o'.issued action).map fun (i, c) => ⟨i, c, s'⟩).toList) o'' s'' :=
  h.trans (by simpa using Outgoing.Run.step action hstep (.refl _ _))

/-- What every move of a run keeps of the log and the machine, the run keeps. -/
theorem Outgoing.Run.keeps (Inv : List (Issue T) → Outgoing T V → Prop) {o o' : Outgoing T V}
    {s s' : Store T} {log : List (Issue T)} (h : Outgoing.Run J P cfg botId o s log o' s')
    (h₀ : Inv [] o) (hmove : ∀ l o₁ s₁ issue o₂ s₂, Outgoing.Run J P cfg botId o s l o₁ s₁ →
      Outgoing.Moves J P cfg botId o₁ s₁ issue o₂ s₂ → Inv l o₁ →
      Inv (l ++ (issue.map fun (i, c) => ⟨i, c, s₁⟩).toList) o₂) : Inv log o' := by
  suffices hrest : ∀ o₁ s₁ log o₂ s₂, Outgoing.Run J P cfg botId o₁ s₁ log o₂ s₂ →
      ∀ l, Outgoing.Run J P cfg botId o s l o₁ s₁ → Inv l o₁ → Inv (l ++ log) o₂ from
    hrest o s log o' s' h [] (.refl o s) h₀
  intro o₁ s₁ log o₂ s₂ hrun
  induction hrun with
  | refl =>
    intro l _ hl
    rwa [List.append_nil]
  | step action hstep _ ih =>
    intro l hl hi
    rw [← List.append_assoc]
    exact ih _ (hl.snoc action hstep) (hmove _ _ _ _ _ _ hl (Outgoing.moves_of_step hstep) hi)

/-- What every move keeps, a run keeps. -/
theorem Outgoing.Run.invariant (Inv : Outgoing T V → Prop)
    (hmove : ∀ o s issue o' s', Outgoing.Moves J P cfg botId o s issue o' s' → Inv o → Inv o')
    {o o' : Outgoing T V} {s s' : Store T} {log : List (Issue T)}
    (h : Outgoing.Run J P cfg botId o s log o' s') (ho : Inv o) : Inv o' :=
  h.keeps (fun _ => Inv) ho fun _ _ _ _ _ _ _ hm hi => hmove _ _ _ _ _ hm hi

end Run

/-- Perform the actions of a schedule. -/
def Outgoing.perform (J : Json T V) (P : PayloadJson V) (cfg : Config) (botId : Id .user) :
    List Action → Outgoing T V → Store T → Option (List (Issue T) × Outgoing T V × Store T)
  | [], o, s => some ([], o, s)
  | action :: actions, o, s => do
    let (o', s') ← Outgoing.step J P cfg botId o s action
    let (log, r) ← Outgoing.perform J P cfg botId actions o' s'
    return (((o.issued action).map fun (i, c) => ⟨i, c, s⟩).toList ++ log, r)

theorem Outgoing.run_of_perform {J : Json T V} {P : PayloadJson V} {cfg : Config} {botId : Id .user}
    {actions : List Action} {o o' : Outgoing T V} {s s' : Store T} {log : List (Issue T)}
    (h : Outgoing.perform J P cfg botId actions o s = some (log, o', s')) :
    Outgoing.Run J P cfg botId o s log o' s' := by
  induction actions generalizing o s log with
  | nil =>
    cases h
    exact .refl _ _
  | cons action actions ih =>
    obtain ⟨⟨o₁, s₁⟩, hstep, h⟩ := Option.bind_eq_some_iff.mp h
    obtain ⟨⟨log₁, r⟩, hrest, h⟩ := Option.bind_eq_some_iff.mp h
    obtain ⟨rfl, rfl⟩ := Prod.mk.inj (Option.some.inj h)
    exact .step action hstep (ih hrest)

/-- The task has reported its event. -/
def Task.finished (t : Task T) : Bool :=
  match t.prog with
  | .ret effects => t.done = effects.length
  | .cmd _ _ => false

/-- Every event has been received and every task has finished. -/
def Outgoing.finished (o : Outgoing T V) : Bool :=
  o.events.isEmpty && (match o.loop with | .waiting => true | .updating _ _ => false) &&
    o.tasks.all Task.finished

/-! ## The events of a call -/

/-- The event the loop is updating the cache for. -/
def Loop.item : Loop T V → List Received
  | .waiting => []
  | .updating item _ => [item]

/-- All events of the stream, those received first. -/
def Outgoing.items (o : Outgoing T V) : List Received :=
  o.tasks.map Task.item ++ o.loop.item ++ o.events

@[simp] theorem Outgoing.items_start (events : List Received) :
    (Outgoing.start events : Outgoing T V).items = events := rfl

theorem map_set_of_eq {α β : Type} {f : α → β} {l : List α} {i : ℕ} {a a' : α} (h : l[i]? = some a)
    (ha : f a' = f a) : (l.set i a').map f = l.map f := by
  obtain ⟨hi, rfl⟩ := List.getElem?_eq_some_iff.mp h
  have hlen : i < (l.map f).length := by rwa [List.length_map]
  rw [List.map_set, ha, show f l[i] = (l.map f)[i] from (List.getElem_map f).symm,
    List.set_getElem_self hlen]

section Items

variable {J : Json T V} {P : PayloadJson V} {cfg : Config} {botId : Id .user}
  {o o' : Outgoing T V} {s s' : Store T}

/-- No event is lost or reordered: the task of an event is found at the position of the event. -/
theorem Outgoing.Moves.items {issue : Option (ℕ × Cmd T)}
    (h : Outgoing.Moves J P cfg botId o s issue o' s') : o'.items = o.items := by
  cases h with
  | receive => simp [Outgoing.items, Loop.item]
  | spawn => simp [Outgoing.items, Loop.item]
  | command => rfl
  | updated => simp [Outgoing.items, Loop.item]
  | task h => exact congrArg (· ++ _ ++ _) (map_set_of_eq h rfl)
  | effect h => exact congrArg (· ++ _ ++ _) (map_set_of_eq h rfl)

theorem Outgoing.Run.items {log : List (Issue T)}
    (h : Outgoing.Run J P cfg botId o s log o' s') : o'.items = o.items :=
  h.invariant (fun o' => o'.items = o.items) (fun _ _ _ _ _ hm ho => hm.items.trans ho) rfl

end Items

/-! ## A call as an interleaving -/

section Pool

variable (J : Json T V) (P : PayloadJson V) (cfg : Config) (botId : Id .user)

/-- All that is done for an event, in the loop and in its task. -/
def Received.prog (item : Received) : Prog (interface T) (List Effect) :=
  if item.inLoop cfg then item.cacheUpdate J cfg botId >>= fun _ => item.task J P cfg botId
  else item.task J P cfg botId

/-- What is left to be done for the event in the loop. -/
def Loop.progs : Loop T V → List (Prog (interface T) (List Effect))
  | .waiting => []
  | .updating item p => [p >>= fun _ => item.task J P cfg botId]

/-- What is left to be done for each event of the stream. -/
def Outgoing.pool (o : Outgoing T V) : List (Prog (interface T) (List Effect)) :=
  o.tasks.map Task.prog ++ o.loop.progs J P cfg botId ++ o.events.map (Received.prog J P cfg botId)

variable {J P cfg botId} {o o' : Outgoing T V} {s s' : Store T}

theorem getElem?_pool_task {o : Outgoing T V} {i : ℕ} {t : Task T} (h : o.tasks[i]? = some t) :
    (Outgoing.pool J P cfg botId o)[i]? = some t.prog := by
  have hi : i < o.tasks.length := (List.getElem?_eq_some_iff.mp h).1
  unfold Outgoing.pool
  rw [List.getElem?_append_left (by simp; omega), List.getElem?_append_left (by simpa),
    List.getElem?_map, h]
  rfl

theorem pool_set_task {events : List Received} {loop : Loop T V} {tasks : List (Task T)}
    {sent sent' : List (ℕ × Effect)} {i : ℕ} {t : Task T} (hi : i < tasks.length) :
    Outgoing.pool J P cfg botId ⟨events, loop, tasks.set i t, sent'⟩ =
      (Outgoing.pool J P cfg botId ⟨events, loop, tasks, sent⟩).set i t.prog := by
  unfold Outgoing.pool
  rw [List.set_append_left _ _ (by simp; omega), List.set_append_left _ _ (by simpa), List.map_set]

/-- Receiving, spawning and reporting leave the pool as it is. -/
theorem Outgoing.Moves.pool_eq (h : Outgoing.Moves J P cfg botId o s none o' s') :
    Outgoing.pool J P cfg botId o' = Outgoing.pool J P cfg botId o ∧ s' = s := by
  generalize hissue : (none : Option (ℕ × Cmd T)) = issue at h
  cases h with
  | receive hin => simp [Outgoing.pool, Loop.progs, Received.prog, hin]
  | spawn hin => simp [Outgoing.pool, Loop.progs, Received.prog, hin]
  | updated => simp [Outgoing.pool, Loop.progs]
  | effect h => exact ⟨congrArg (· ++ _ ++ _) (map_set_of_eq h rfl), rfl⟩
  | command => cases hissue
  | task => cases hissue

/-- A command is that of the program at the position it is logged with. -/
theorem Outgoing.Moves.pool_set {i : ℕ} {c : Cmd T}
    (h : Outgoing.Moves J P cfg botId o s (some (i, c)) o' s') :
    ∃ k, (Outgoing.pool J P cfg botId o)[i]? = some (.cmd c k) ∧
      Outgoing.pool J P cfg botId o' = (Outgoing.pool J P cfg botId o).set i (k (exec c s).1) ∧
      s' = (exec c s).2 := by
  generalize hissue : some (i, c) = issue at h
  cases h with
  | @command item c' k events tasks sent =>
    obtain ⟨rfl, rfl⟩ := Prod.mk.inj (Option.some.inj hissue)
    refine ⟨fun r => k r >>= fun _ => item.task J P cfg botId, ?_, ?_, rfl⟩
    · simp [Outgoing.pool, Loop.progs]
    · simp [Outgoing.pool, Loop.progs]
  | @task i' item c' k n events loop tasks sent _ h =>
    obtain ⟨rfl, rfl⟩ := Prod.mk.inj (Option.some.inj hissue)
    have hi : (Outgoing.pool J P cfg botId ⟨events, loop, tasks, sent⟩)[i]? = some _ :=
      getElem?_pool_task h
    exact ⟨k, hi, pool_set_task (List.getElem?_eq_some_iff.mp h).1, rfl⟩
  | receive | spawn | updated | effect => cases hissue

variable (J P cfg botId) in
/-- When everything is done, the programs of the pool have returned. -/
theorem Outgoing.pool_of_finished (h : o.finished = true) :
    ∃ as : List (List Effect), Outgoing.pool J P cfg botId o = as.map .ret := by
  obtain ⟨events, loop, tasks, sent⟩ := o
  simp only [Outgoing.finished, Bool.and_eq_true, List.isEmpty_iff, List.all_eq_true] at h
  obtain ⟨⟨rfl, hloop⟩, htasks⟩ := h
  rcases loop with _ | _
  · have hret : ∀ p ∈ tasks.map Task.prog, ∃ effects, .ret effects = p := by
      intro p hp
      obtain ⟨⟨item, effects | _, n⟩, ht, rfl⟩ := List.mem_map.mp hp
      · exact ⟨effects, rfl⟩
      · cases htasks _ ht
    have hrange : tasks.map Task.prog ∈ Set.range (List.map .ret) := by
      rw [Set.range_list_map]
      exact hret
    obtain ⟨as, has⟩ := hrange
    exact ⟨as, by simp [Outgoing.pool, Loop.progs, has]⟩
  · cases hloop

/-- **A call is an interleaving** of one program for each event of its stream. -/
theorem Outgoing.Run.interleave {log : List (Issue T)}
    (h : Outgoing.Run J P cfg botId o s log o' s') (hfin : o'.finished = true) :
    ∃ as, Outgoing.pool J P cfg botId o' = as.map .ret ∧
      Interleave exec (log.map Issue.position) (Outgoing.pool J P cfg botId o) s as s' := by
  induction h with
  | refl o s =>
    obtain ⟨as, has⟩ := Outgoing.pool_of_finished J P cfg botId hfin
    exact ⟨as, has, has ▸ .done as s⟩
  | @step o₁ o₂ o₃ s₁ s₂ s₃ log action hstep _ ih =>
    obtain ⟨as, hret, has⟩ := ih hfin
    have hmove := Outgoing.moves_of_step hstep
    rcases hissue : o₁.issued action with _ | ⟨i, c⟩
    · rw [hissue] at hmove
      obtain ⟨hpool, rfl⟩ := hmove.pool_eq
      exact ⟨as, hret, hpool ▸ has⟩
    · rw [hissue] at hmove
      obtain ⟨k, hi, hpool, rfl⟩ := hmove.pool_set
      exact ⟨as, hret, .step hi (hpool ▸ has)⟩

/-! ## The commands for one event -/

/-- The commands logged for the event at position `i`, each with the store in which it was
executed. -/
def commandsOf (log : List (Issue T)) (i : ℕ) : List (Cmd T × Store T) :=
  (log.filter fun issue => issue.position = i).map fun issue => (issue.cmd, issue.before)

@[simp] theorem commandsOf_nil (i : ℕ) : commandsOf ([] : List (Issue T)) i = [] := rfl

@[simp] theorem commandsOf_append (l l' : List (Issue T)) (i : ℕ) :
    commandsOf (l ++ l') i = commandsOf l i ++ commandsOf l' i := by
  simp [commandsOf]

theorem commandsOf_self (i : ℕ) (c : Cmd T) (s : Store T) : commandsOf [⟨i, c, s⟩] i = [(c, s)] := by
  simp [commandsOf]

theorem commandsOf_ne {i j : ℕ} (h : j ≠ i) (c : Cmd T) (s : Store T) :
    commandsOf [⟨j, c, s⟩] i = [] := by
  simp [commandsOf, h]

/-- The commands for an event are those of its program, executed once. -/
theorem Outgoing.Run.issues {events : List Received} {log : List (Issue T)}
    (h : Outgoing.Run J P cfg botId (.start events) s log o s') {i : ℕ} {item : Received}
    (hi : events[i]? = some item) : ∃ p, (Outgoing.pool J P cfg botId o)[i]? = some p ∧
      Prog.Issues exec (item.prog J P cfg botId) (commandsOf log i) p := by
  refine h.keeps (fun l o => ∃ p, (Outgoing.pool J P cfg botId o)[i]? = some p ∧
    Prog.Issues exec (item.prog J P cfg botId) (commandsOf l i) p) ?_ ?_
  · have hpool : Outgoing.pool J P cfg botId (.start events) =
        events.map (Received.prog J P cfg botId) := rfl
    rw [hpool, List.getElem?_map, hi]
    exact ⟨_, rfl, .refl _⟩
  · rintro l o s (_ | ⟨j, c⟩) o' s' - hm ⟨p, hp, hissues⟩
    · rw [hm.pool_eq.1]
      exact ⟨p, hp, by simpa using hissues⟩
    · obtain ⟨k, hj, hpool, -⟩ := hm.pool_set
      change ∃ p, _ ∧ Prog.Issues exec _ (commandsOf (l ++ [⟨j, c, s⟩]) i) p
      rw [hpool, commandsOf_append]
      by_cases hji : j = i
      · subst hji
        obtain rfl := Option.some.inj (hp.symm.trans hj)
        refine ⟨_, List.getElem?_set_self (List.getElem?_eq_some_iff.mp hj).1, ?_⟩
        rw [commandsOf_self]
        exact hissues.snoc s
      · refine ⟨p, by rw [List.getElem?_set_ne hji, hp], ?_⟩
        rwa [commandsOf_ne hji, List.append_nil]

end Pool

end TwilightDispatch
