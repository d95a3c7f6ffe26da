import TwilightDispatch.Handler
import TwilightDispatch.Sessions

/-!
# Processes

The whole service: processes that run one after another on one Redis. In a process `real_main`, the
round of `run_jobs`, and the loops and tasks of `handler::outgoing` execute their Redis commands in
any order, the clusters change the state of their shards and put events on the streams, and the
process may end between any two of these steps (`World.step`).
-/

namespace TwilightDispatch

open Atomic Redis

variable {T V : Type}

/-! ## States -/

/-- Where `real_main` stands: in `get_clusters`, at the keys it sets next, waiting for the signal, or
shutting down, with the sessions that `down_resumable` returned. -/
inductive Main (T : Type) where
  | connecting (prog : Prog (interface T) (Except Failure (List Cluster × ClusterInfo)))
  | announcing (clusters : List Cluster) (prog : Prog (interface T) (Except Failure Unit))
  | running
  | stopping (resumable : List (UInt64 × ResumeSession))
      (prog : Prog (interface T) (Except Failure Unit))

/-- A dispatch that a shard has received: its sequence number, and where its payload is found in the
stream of a cluster. -/
structure Dispatch where
  shard : UInt64
  seq : ℕ
  call : ℕ
  position : ℕ
  deriving DecidableEq

/-- A process: its main function, what is left of the round of `run_jobs`, the call of
`handler::outgoing` for each cluster, the shards that have been started, and the dispatches they have
received. -/
structure Process (T V : Type) where
  settings : Settings
  main : Main T
  jobs : Prog (interface T) Unit
  calls : List (Outgoing T V)
  shards : List (UInt64 × ShardInfo)
  dispatched : List Dispatch

/-- Redis and the process that runs, if one does. `established` lists the sessions that the gateway
has established with each shard so far, and `writer` tells under which settings a key was last
written. -/
structure World (T V : Type) where
  store : Store T
  process : Option (Process T V)
  established : List (UInt64 × String)
  writer : String → Option Settings

/-- No process has been started yet. -/
def World.init : World T V := ⟨Store.empty, none, [], fun _ => none⟩

/-! ## Steps -/

/-- What happens next. -/
inductive Move where
  /-- A process is started. -/
  | start (settings : Settings) (orders : Orders)
  /-- `real_main` executes a command or goes on to its next part. -/
  | main (env : Env)
  /-- The signal arrives, and the clusters are brought down. -/
  | shutDown (resumable : List (UInt64 × ResumeSession)) (orders : Orders)
  /-- `run_jobs` begins a round: it reads what the clusters report. -/
  | round (env : Env) (statuses : List StatusInfo)
  /-- `run_jobs` executes a command. -/
  | job
  /-- The connection of a shard changes. -/
  | shard (shard : UInt64) (info : ShardInfo)
  /-- A shard receives a dispatch and puts its payload on the stream of its cluster. -/
  | dispatch (shard : UInt64) (seq : ℕ) (call : ℕ) (bytes : List UInt8) (env : Env)
  /-- Another event is put on the stream of a cluster. -/
  | event (call : ℕ) (item : Received)
  /-- `handler::outgoing` or one of its tasks makes a move. -/
  | outgoing (call : ℕ) (action : Action)
  /-- The process ends: it is done, an error ends it, or it is killed. -/
  | stop

/-- The report of the clusters after one shard has changed. -/
def setInfo (shards : List (UInt64 × ShardInfo)) (shard : UInt64) (info : ShardInfo) :
    List (UInt64 × ShardInfo) :=
  shards.filter (fun entry => entry.1 ≠ shard) ++ [(shard, info)]

/-- The clusters are up and the jobs have been spawned. -/
def Main.up : Main T → Bool
  | .running | .stopping _ _ => true
  | .connecting _ | .announcing _ _ => false

/-- The string keys a command writes. -/
def writtenKeys : Cmd T → List String
  | .mset items => items.map Prod.fst
  | _ => []

/-- The settings under which each key was last written, after a command. -/
def World.record (w : World T V) (settings : Settings) (c : Cmd T) : String → Option Settings :=
  fun key => if key ∈ writtenKeys c then some settings else w.writer key

/-- A command of a process is executed. -/
def World.execute (w : World T V) (c : Cmd T) (p : Process T V) : World T V :=
  { w with store := apply c w.store, process := some p, writer := w.record p.settings c }

@[simp] theorem World.store_execute (w : World T V) (c : Cmd T) (p : Process T V) :
    (w.execute c p).store = apply c w.store := rfl

section Step

variable (J : Json T V) (P : PayloadJson V)

def World.stepMain (w : World T V) (p : Process T V) (env : Env) : Option (World T V) :=
  match p.main with
  | .connecting (.cmd c k) =>
    some (w.execute c { p with main := .connecting (k (.ok (reply c w.store))) })
  | .connecting (.ret (.ok (clusters, _))) =>
    some { w with process := some { p with
      main := .announcing clusters (ExceptT.run (announce J p.settings env)) } }
  | .announcing clusters (.cmd c k) =>
    some (w.execute c { p with main := .announcing clusters (k (.ok (reply c w.store))) })
  | .announcing clusters (.ret (.ok ())) =>
    some { w with process := some { p with
      main := .running, calls := clusters.map fun _ => .start [] } }
  | .stopping resumable (.cmd c k) =>
    some (w.execute c { p with main := .stopping resumable (k (.ok (reply c w.store))) })
  -- an error ends the process
  | .connecting (.ret (.error _)) | .announcing _ (.ret (.error _)) => none
  | .running | .stopping _ (.ret _) => none

def World.stepProcess (w : World T V) (p : Process T V) : Move → Option (World T V)
  | .start _ _ => none
  | .main env => w.stepMain J p env
  | .shutDown resumable orders =>
    match p.main with
    | .running =>
      if resumable.all fun r => (r.1, ⟨some r.2.sessionId, r.2.sequence⟩) ∈ p.shards then
        some { w with process := some { p with
          main := .stopping resumable (ExceptT.run (saveSessions J orders resumable)) } }
      else none
    | _ => none
  | .round env statuses =>
    match p.main.up, p.jobs with
    | true, .ret () =>
      some { w with process := some { p with
        jobs := jobsRound J env statuses (dumpedSessions p.shards) } }
    | _, _ => none
  | .job =>
    match p.jobs with
    | .cmd c k => some (w.execute c { p with jobs := k (.ok (reply c w.store)) })
    | .ret () => none
  | .shard shard info =>
    if p.main.up ∧ info.sessionId ≠ some "" then
      some { w with
        process := some { p with shards := setInfo p.shards shard info }
        established := (info.sessionId.map fun id => (shard, id)).toList ++ w.established }
    else none
  | .dispatch shard seq call bytes env =>
    match p.calls[call]?, p.shards.lookup shard with
    | some o, some info =>
      if info.seq < seq then
        let item : Received := ⟨shard.toNat, .shardPayload bytes, env⟩
        some { w with process := some { p with
          calls := p.calls.set call { o with events := o.events ++ [item] }
          shards := setInfo p.shards shard { info with seq := seq }
          dispatched := p.dispatched ++ [⟨shard, seq, call, o.items.length⟩] } }
      else none
    | _, _ => none
  | .event call item =>
    match p.calls[call]? with
    | some o => some { w with process := some { p with
        calls := p.calls.set call { o with events := o.events ++ [item] } } }
    | none => none
  | .outgoing call action =>
    match p.calls[call]? with
    | some o =>
      match Outgoing.step J P p.settings.state p.settings.botId o w.store action with
      | some (o', s') => some { w with
          store := s'
          process := some { p with calls := p.calls.set call o' }
          writer := match o.issued action with
            | some (_, c) => w.record p.settings c
            | none => w.writer }
      | none => none
    | none => none
  | .stop => some { w with process := none }

def World.step (w : World T V) (move : Move) : Option (World T V) :=
  match w.process, move with
  | some p, move => w.stepProcess J P p move
  | none, .start settings orders =>
    let main := .connecting (ExceptT.run (getClusters J settings orders))
    some { w with process := some ⟨settings, main, .ret (), [], [], []⟩ }
  | none, _ => none

/-- What a step does, by cases. -/
inductive World.Moves : World T V → Move → World T V → Prop
  | start {w settings orders} (hw : w.process = none) :
      Moves w (.start settings orders) { w with process := some ⟨settings,
        .connecting (ExceptT.run (getClusters J settings orders)), .ret (), [], [], []⟩ }
  | connect {w p c k env} (hw : w.process = some p) (hp : p.main = .connecting (.cmd c k)) :
      Moves w (.main env)
        (w.execute c { p with main := .connecting (k (.ok (reply c w.store))) })
  | connected {w p clusters info env} (hw : w.process = some p)
      (hp : p.main = .connecting (.ret (.ok (clusters, info)))) :
      Moves w (.main env) { w with process := some { p with
        main := .announcing clusters (ExceptT.run (announce J p.settings env)) } }
  | announce {w p clusters c k env} (hw : w.process = some p)
      (hp : p.main = .announcing clusters (.cmd c k)) :
      Moves w (.main env)
        (w.execute c { p with main := .announcing clusters (k (.ok (reply c w.store))) })
  | announced {w p clusters env} (hw : w.process = some p)
      (hp : p.main = .announcing clusters (.ret (.ok ()))) :
      Moves w (.main env) { w with process := some { p with
        main := .running, calls := clusters.map fun _ => .start [] } }
  | save {w p resumable c k env} (hw : w.process = some p)
      (hp : p.main = .stopping resumable (.cmd c k)) :
      Moves w (.main env)
        (w.execute c { p with main := .stopping resumable (k (.ok (reply c w.store))) })
  | shutDown {w p resumable orders} (hw : w.process = some p) (hp : p.main = .running)
      (hr : ∀ r ∈ resumable, (r.1, ⟨some r.2.sessionId, r.2.sequence⟩) ∈ p.shards) :
      Moves w (.shutDown resumable orders) { w with process := some { p with
        main := .stopping resumable (ExceptT.run (saveSessions J orders resumable)) } }
  | round {w p env statuses} (hw : w.process = some p) (hp : p.main.up = true)
      (hj : p.jobs = .ret ()) :
      Moves w (.round env statuses) { w with process := some { p with
        jobs := jobsRound J env statuses (dumpedSessions p.shards) } }
  | job {w p c k} (hw : w.process = some p) (hp : p.jobs = .cmd c k) :
      Moves w .job (w.execute c { p with jobs := k (.ok (reply c w.store)) })
  | shard {w p shard info} (hw : w.process = some p) (hp : p.main.up = true)
      (hi : info.sessionId ≠ some "") :
      Moves w (.shard shard info) { w with
        process := some { p with shards := setInfo p.shards shard info }
        established := (info.sessionId.map fun id => (shard, id)).toList ++ w.established }
  | dispatch {w p o info shard seq call bytes env} (hw : w.process = some p)
      (ho : p.calls[call]? = some o) (hs : p.shards.lookup shard = some info)
      (hlt : info.seq < seq) :
      Moves w (.dispatch shard seq call bytes env) { w with process := some { p with
        calls := p.calls.set call
          { o with events := o.events ++ [⟨shard.toNat, .shardPayload bytes, env⟩] }
        shards := setInfo p.shards shard { info with seq := seq }
        dispatched := p.dispatched ++ [⟨shard, seq, call, o.items.length⟩] } }
  | event {w p o call item} (hw : w.process = some p) (ho : p.calls[call]? = some o) :
      Moves w (.event call item) { w with process := some { p with
        calls := p.calls.set call { o with events := o.events ++ [item] } } }
  | silent {w p o o' s' call action} (hw : w.process = some p) (ho : p.calls[call]? = some o)
      (hi : o.issued action = none)
      (hm : Outgoing.Moves J P p.settings.state p.settings.botId o w.store none o' s') :
      Moves w (.outgoing call action)
        { w with process := some { p with calls := p.calls.set call o' } }
  | outgoing {w p o o' s' call action i c} (hw : w.process = some p) (ho : p.calls[call]? = some o)
      (hi : o.issued action = some (i, c))
      (hm : Outgoing.Moves J P p.settings.state p.settings.botId o w.store (some (i, c)) o' s') :
      Moves w (.outgoing call action) (w.execute c { p with calls := p.calls.set call o' })
  | stop {w} (hw : w.process ≠ none) : Moves w .stop { w with process := none }

variable {J P}

theorem World.moves_of_stepMain {w w' : World T V} {p : Process T V} {env : Env}
    (hw : w.process = some p) (h : w.stepMain J p env = some w') :
    World.Moves J P w (.main env) w' := by
  unfold World.stepMain at h
  rcases hp : p.main with (⟨_ | ⟨clusters, info⟩⟩ | ⟨c, k⟩) | ⟨clusters, (_ | _) | ⟨c, k⟩⟩ | _ |
    ⟨resumable, _ | ⟨c, k⟩⟩ <;> rw [hp] at h <;> cases h
  · exact .connected hw hp
  · exact .connect hw hp
  · exact .announced hw hp
  · exact .announce hw hp
  · exact .save hw hp

theorem World.moves_of_stepProcess {w w' : World T V} {p : Process T V} {move : Move}
    (hw : w.process = some p) (h : w.stepProcess J P p move = some w') :
    World.Moves J P w move w' := by
  cases move with
  | start => cases h
  | main env => exact World.moves_of_stepMain hw h
  | shutDown resumable orders =>
    rcases hp : p.main with _ | _ | _ | _ <;> simp only [World.stepProcess, hp] at h <;> try cases h
    split_ifs at h with hr
    cases h
    exact .shutDown hw hp fun r hmem => of_decide_eq_true (List.all_eq_true.mp hr r hmem)
  | round env statuses =>
    rcases hp : p.main.up <;> rcases hj : p.jobs with _ | _ <;>
      simp only [World.stepProcess, hp, hj] at h <;> cases h
    exact .round hw hp hj
  | job =>
    rcases hj : p.jobs with _ | ⟨c, k⟩ <;> simp only [World.stepProcess, hj] at h <;> cases h
    exact .job hw hj
  | shard shard info =>
    simp only [World.stepProcess] at h
    split_ifs at h with hi
    cases h
    exact .shard hw hi.1 hi.2
  | dispatch shard seq call bytes env =>
    rcases ho : p.calls[call]? with _ | o
    · simp [World.stepProcess, ho] at h
    rcases hs : p.shards.lookup shard with _ | info
    · simp [World.stepProcess, ho, hs] at h
    simp only [World.stepProcess, ho, hs] at h
    split_ifs at h with hlt
    cases h
    exact .dispatch hw ho hs hlt
  | event call item =>
    rcases ho : p.calls[call]? with _ | o
    · simp [World.stepProcess, ho] at h
    simp only [World.stepProcess, ho] at h
    cases h
    exact .event hw ho
  | outgoing call action =>
    rcases ho : p.calls[call]? with _ | o
    · simp [World.stepProcess, ho] at h
    rcases hstep : Outgoing.step J P p.settings.state p.settings.botId o w.store action with
      _ | ⟨o', s'⟩
    · simp [World.stepProcess, ho, hstep] at h
    simp only [World.stepProcess, ho, hstep, Option.some.injEq] at h
    have hm := Outgoing.moves_of_step hstep
    rcases hi : o.issued action with _ | ⟨i, c⟩
    · rw [hi] at hm h
      obtain rfl := hm.pool_eq.2
      subst h
      exact .silent hw ho hi hm
    · rw [hi] at hm h
      obtain ⟨k, -, -, rfl⟩ := hm.pool_set
      subst h
      exact .outgoing hw ho hi hm
  | stop =>
    cases h
    exact .stop (hw ▸ nofun)

theorem World.moves_of_step {w w' : World T V} {move : Move} (h : w.step J P move = some w') :
    World.Moves J P w move w' := by
  unfold World.step at h
  rcases hw : w.process with _ | p
  · rw [hw] at h
    cases move with
    | start settings orders =>
      cases h
      exact .start hw
    | _ => cases h
  · rw [hw] at h
    exact World.moves_of_stepProcess hw h

variable (J P)

/-- The worlds reached by steps that each satisfy `ok` where they are taken. -/
inductive World.Reached (ok : World T V → Move → Prop) : World T V → Prop
  | init : Reached ok .init
  | step {w w' : World T V} {move : Move} (h : Reached ok w) (hok : ok w move)
      (hstep : w.step J P move = some w') : Reached ok w'

variable {J P} in
theorem World.Reached.mono {ok ok' : World T V → Move → Prop} {w : World T V}
    (h : World.Reached J P ok w) (hok : ∀ w move, ok w move → ok' w move) :
    World.Reached J P ok' w := by
  induction h with
  | init => exact .init
  | step _ hmove hstep ih => exact ih.step (hok _ _ hmove) hstep

variable (ok : World T V → Move → Prop) [DecidableRel ok]

/-- Take steps one after another, as long as each satisfies `ok`. -/
def World.perform : List Move → World T V → Option (World T V)
  | [], w => some w
  | move :: moves, w => if ok w move then w.step J P move >>= World.perform moves else none

variable {J P ok}

theorem World.Reached.perform {w w' : World T V} {moves : List Move} (h : World.Reached J P ok w)
    (hw : World.perform J P ok moves w = some w') : World.Reached J P ok w' := by
  induction moves generalizing w with
  | nil => exact Option.some.inj hw ▸ h
  | cons move moves ih =>
    rw [World.perform] at hw
    split_ifs at hw with hok
    obtain ⟨w₁, hstep, hw⟩ := Option.bind_eq_some_iff.mp hw
    exact ih (h.step hok hstep) hw

end Step

end TwilightDispatch
