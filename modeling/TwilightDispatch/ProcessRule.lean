import TwilightDispatch.EventOrder
import TwilightDispatch.Process

/-!
# The rule of processes

What a process is put together from are the commands for its own keys, updates of the cache and
sweeps. If these are confined to a region under an invariant of the store (`Bounded`), then the
invariant holds in every world, and every command that is executed is local to the region.
-/

namespace TwilightDispatch

open Atomic Redis

variable {T V : Type} {Inv : Store T → Prop} {R : Set Cell} {J : Json T V} {P : PayloadJson V}
  {cfg : Config} {botId : Id .user} {s : Store T}

/-! ## The calls of `outgoing` -/

/-- What is left to do for the events of a stream is confined. -/
def Outgoing.Bounded (Inv : Store T → Prop) (R : Set Cell) (J : Json T V) (P : PayloadJson V)
    (cfg : Config) (botId : Id .user) (o : Outgoing T V) : Prop :=
  ∀ p ∈ o.pool J P cfg botId, Confined exec (cells T) Inv R p

namespace Outgoing.Bounded

theorem start : Outgoing.Bounded Inv R J P cfg botId (.start [] : Outgoing T V) :=
  fun _ hp => nomatch hp

theorem receive {o : Outgoing T V} (h : o.Bounded Inv R J P cfg botId) {item : Received}
    (hitem : Confined exec (cells T) Inv R (item.cacheUpdate J cfg botId)) :
    Outgoing.Bounded Inv R J P cfg botId { o with events := o.events ++ [item] } := by
  intro p hp
  unfold Outgoing.pool at hp
  rw [List.map_append, ← List.append_assoc] at hp
  rcases List.mem_append.mp hp with hp | hp
  · exact h p hp
  · rw [List.mem_singleton.mp hp]
    exact Received.prog_confined hitem

theorem silent {o o' : Outgoing T V} {s' : Store T} (h : o.Bounded Inv R J P cfg botId)
    (hm : Outgoing.Moves J P cfg botId o s none o' s') : o'.Bounded Inv R J P cfg botId := by
  intro p hp
  rw [hm.pool_eq.1] at hp
  exact h p hp

theorem command {o o' : Outgoing T V} {s' : Store T} {i : ℕ} {c : Cmd T}
    (h : o.Bounded Inv R J P cfg botId)
    (hm : Outgoing.Moves J P cfg botId o s (some (i, c)) o' s') (hs : Inv s) :
    Local exec (cells T) R c ∧ Inv (apply c s) ∧ o'.Bounded Inv R J P cfg botId := by
  obtain ⟨k, hk, hpool, -⟩ := hm.pool_set
  have hconf := h _ (List.mem_of_getElem? hk)
  refine ⟨hconf.local hs, hconf.keeps hs, fun p hp => ?_⟩
  rw [hpool] at hp
  rcases List.mem_or_eq_of_mem_set hp with hp | rfl
  · exact h p hp
  · exact hconf.next hs

end Outgoing.Bounded

/-! ## Processes -/

/-- What is left of `real_main` is confined. -/
def Main.Bounded (Inv : Store T → Prop) (R : Set Cell) : Main T → Prop
  | .connecting prog => Confined exec (cells T) Inv R prog
  | .announcing _ prog => Confined exec (cells T) Inv R prog
  | .running => True
  | .stopping _ prog => Confined exec (cells T) Inv R prog

section Rule

variable (Inv R J P)

/-- Every program of a process is confined. -/
structure Process.Bounded (p : Process T V) : Prop where
  main : p.main.Bounded Inv R
  jobs : Confined exec (cells T) Inv R p.jobs
  calls : ∀ o ∈ p.calls, o.Bounded Inv R J P p.settings.state p.settings.botId

structure World.Bounded (w : World T V) : Prop where
  store : Inv w.store
  process : ∀ p, w.process = some p → p.Bounded Inv R J P

/-- What a process is put together from is confined. -/
structure Bounded : Prop where
  empty : Inv Store.empty
  get : ∀ key ∈ gatewayKeys,
    Confines exec (cells T) Inv R (redis (.get key) : Api T (Option T)) fun _ => True
  set : ∀ key ∈ gatewayKeys, ∀ t,
    Confines exec (cells T) Inv R (redis (.mset [(key, t)]) : Api T Unit) fun _ => True
  update : ∀ cfg botId env event,
    Confined exec (cells T) Inv R (ExceptT.run (update J cfg botId env event))
  sweep : ∀ env, Confined exec (cells T) Inv R (sweep J env)

variable {Inv R J P}

namespace Bounded

variable (hb : Bounded Inv R J)
include hb

/-- A process sets one of its keys. -/
theorem setKey {key : String} (hkey : key ∈ gatewayKeys) (orders : Orders) (item : Item) :
    Confines exec (cells T) Inv R (TwilightDispatch.set J orders key item) fun _ => True := by
  rw [set_eq (colon_notMem_of_gateway hkey)]
  exact hb.set key hkey _

theorem getClusters (settings : Settings) (orders : Orders) :
    Confined exec (cells T) Inv R (ExceptT.run (getClusters J settings orders)) :=
  (logic_getClusters (Confines.logic _ _ _ _) hb.get).confined

theorem announce (settings : Settings) (env : Env) :
    Confined exec (cells T) Inv R (ExceptT.run (announce J settings env)) :=
  ((Confines.logic _ _ _ _).andThen (hb.setKey (by simp [gatewayKeys]) _ _)
    fun _ => hb.setKey (by simp [gatewayKeys]) _ _).confined

theorem saveSessions (orders : Orders) (resumable : List (UInt64 × ResumeSession)) :
    Confined exec (cells T) Inv R (ExceptT.run (saveSessions J orders resumable)) :=
  (hb.setKey (by simp [gatewayKeys]) _ _).confined

theorem jobsRound (env : Env) (statuses : List StatusInfo) (sessions : Sessions) :
    Confined exec (cells T) Inv R (jobsRound J env statuses sessions) :=
  (hb.setKey (by simp [gatewayKeys]) _ _).confined.bind fun _ =>
    (hb.setKey (by simp [gatewayKeys]) _ _).confined.bind fun _ => hb.sweep env

/-- A step keeps the invariant and leaves confined programs confined. -/
theorem moves {w w' : World T V} {move : Move} (h : w.Bounded Inv R J P)
    (hm : World.Moves J P w move w') : w'.Bounded Inv R J P := by
  have hgo : ∀ {p' : Process T V}, p'.Bounded Inv R J P →
      World.Bounded Inv R J P { w with process := some p' } :=
    fun hp => ⟨h.store, fun q hq => Option.some.inj hq ▸ hp⟩
  have hcmd : ∀ {c : Cmd T} {p' : Process T V}, Inv (apply c w.store) → p'.Bounded Inv R J P →
      (w.execute c p').Bounded Inv R J P :=
    fun hs hp => ⟨hs, fun q hq => Option.some.inj hq ▸ hp⟩
  cases hm with
  | @start settings orders hw =>
    exact hgo ⟨hb.getClusters settings orders, confined_ret _, fun _ ho => nomatch ho⟩
  | @connect p c k env hw hp =>
    obtain ⟨hmain, hjobs, hcalls⟩ := h.process p hw
    rw [hp] at hmain
    exact hcmd (Confined.keeps hmain h.store) ⟨Confined.next hmain h.store, hjobs, hcalls⟩
  | @connected p clusters info env hw hp =>
    obtain ⟨-, hjobs, hcalls⟩ := h.process p hw
    exact hgo ⟨hb.announce _ env, hjobs, hcalls⟩
  | @announce p clusters c k env hw hp =>
    obtain ⟨hmain, hjobs, hcalls⟩ := h.process p hw
    rw [hp] at hmain
    exact hcmd (Confined.keeps hmain h.store) ⟨Confined.next hmain h.store, hjobs, hcalls⟩
  | @announced p clusters env hw hp =>
    obtain ⟨-, hjobs, -⟩ := h.process p hw
    refine hgo ⟨trivial, hjobs, fun o ho => ?_⟩
    obtain ⟨_, -, rfl⟩ := List.mem_map.mp ho
    exact .start
  | @save p resumable c k env hw hp =>
    obtain ⟨hmain, hjobs, hcalls⟩ := h.process p hw
    rw [hp] at hmain
    exact hcmd (Confined.keeps hmain h.store) ⟨Confined.next hmain h.store, hjobs, hcalls⟩
  | @shutDown p resumable orders hw hp hr =>
    obtain ⟨-, hjobs, hcalls⟩ := h.process p hw
    exact hgo ⟨hb.saveSessions orders resumable, hjobs, hcalls⟩
  | @round p env statuses hw hp hj =>
    obtain ⟨hmain, -, hcalls⟩ := h.process p hw
    exact hgo ⟨hmain, hb.jobsRound env statuses _, hcalls⟩
  | @job p c k hw hp =>
    obtain ⟨hmain, hjobs, hcalls⟩ := h.process p hw
    rw [hp] at hjobs
    exact hcmd (hjobs.keeps h.store) ⟨hmain, hjobs.next h.store, hcalls⟩
  | @shard p shard info hw hp hi =>
    obtain ⟨hmain, hjobs, hcalls⟩ := h.process p hw
    exact ⟨h.store, fun q hq => Option.some.inj hq ▸ ⟨hmain, hjobs, hcalls⟩⟩
  | @dispatch p o info shard seq call bytes env hw ho hs hlt =>
    obtain ⟨hmain, hjobs, hcalls⟩ := h.process p hw
    refine hgo ⟨hmain, hjobs, fun q hq => ?_⟩
    rcases List.mem_or_eq_of_mem_set hq with hq | rfl
    · exact hcalls q hq
    · exact (hcalls o (List.mem_of_getElem? ho)).receive (hb.update _ _ _ _)
  | @event p o call item hw ho =>
    obtain ⟨hmain, hjobs, hcalls⟩ := h.process p hw
    refine hgo ⟨hmain, hjobs, fun q hq => ?_⟩
    rcases List.mem_or_eq_of_mem_set hq with hq | rfl
    · exact hcalls q hq
    · exact (hcalls o (List.mem_of_getElem? ho)).receive (hb.update _ _ _ _)
  | @silent p o o' s' call action hw ho hi hmoves =>
    obtain ⟨hmain, hjobs, hcalls⟩ := h.process p hw
    refine hgo ⟨hmain, hjobs, fun q hq => ?_⟩
    rcases List.mem_or_eq_of_mem_set hq with hq | rfl
    · exact hcalls q hq
    · exact (hcalls o (List.mem_of_getElem? ho)).silent hmoves
  | @outgoing p o o' s' call action i c hw ho hi hmoves =>
    obtain ⟨hmain, hjobs, hcalls⟩ := h.process p hw
    obtain ⟨-, hs, ho'⟩ := (hcalls o (List.mem_of_getElem? ho)).command hmoves h.store
    refine hcmd hs ⟨hmain, hjobs, fun q hq => ?_⟩
    rcases List.mem_or_eq_of_mem_set hq with hq | rfl
    · exact hcalls q hq
    · exact ho'
  | stop hw => exact ⟨h.store, fun _ hp => nomatch hp⟩

theorem reached {ok : World T V → Move → Prop} {w : World T V} (h : World.Reached J P ok w) :
    w.Bounded Inv R J P := by
  induction h with
  | init => exact ⟨hb.empty, fun _ hp => nomatch hp⟩
  | step _ _ hstep ih => exact hb.moves ih (World.moves_of_step hstep)

end Bounded

/-! ## The command of a step -/

/-- The command that a step executes, if it executes one. -/
def World.issued (w : World T V) (move : Move) : Option (Cmd T) :=
  match w.process, move with
  | some p, .main _ =>
    match p.main with
    | .connecting (.cmd c _) | .announcing _ (.cmd c _) | .stopping _ (.cmd c _) => some c
    | _ => none
  | some p, .job =>
    match p.jobs with
    | .cmd c _ => some c
    | .ret () => none
  | some p, .outgoing call action =>
    (p.calls[call]?).bind fun o => (o.issued action).map Prod.snd
  | _, _ => none

variable (J P) in
/-- The command is the next one of a program of the process. -/
inductive Process.Offers (p : Process T V) (c : Cmd T) : Prop
  | connecting {k} (h : p.main = .connecting (.cmd c k))
  | announcing {clusters k} (h : p.main = .announcing clusters (.cmd c k))
  | stopping {resumable k} (h : p.main = .stopping resumable (.cmd c k))
  | job {k} (h : p.jobs = .cmd c k)
  | call {o : Outgoing T V} {i : ℕ} {k} (ho : o ∈ p.calls)
      (hk : (o.pool J P p.settings.state p.settings.botId)[i]? = some (Prog.cmd c k))

/-- A step executes no command and leaves the store, or it executes a command that is offered. -/
theorem World.Moves.command {w w' : World T V} {move : Move} (hm : World.Moves J P w move w') :
    (w.issued move = none ∧ w'.store = w.store) ∨
      ∃ p c, w.process = some p ∧ p.Offers J P c ∧ w.issued move = some c ∧
        w'.store = apply c w.store := by
  unfold World.issued
  cases hm with
  | start hw => exact .inl ⟨by rw [hw], rfl⟩
  | @connect p c k _ hw hp => exact .inr ⟨p, c, hw, .connecting hp, by simp only [hw, hp], rfl⟩
  | connected hw hp => exact .inl ⟨by simp only [hw, hp], rfl⟩
  | @announce p _ c k _ hw hp => exact .inr ⟨p, c, hw, .announcing hp, by simp only [hw, hp], rfl⟩
  | announced hw hp => exact .inl ⟨by simp only [hw, hp], rfl⟩
  | @save p _ c k _ hw hp => exact .inr ⟨p, c, hw, .stopping hp, by simp only [hw, hp], rfl⟩
  | shutDown hw hp hr => exact .inl ⟨by simp only [hw], rfl⟩
  | round hw hp hj => exact .inl ⟨by simp only [hw], rfl⟩
  | @job p c k hw hp => exact .inr ⟨p, c, hw, .job hp, by simp only [hw, hp], rfl⟩
  | shard hw hp hi => exact .inl ⟨by simp only [hw], rfl⟩
  | dispatch hw ho hs hlt => exact .inl ⟨by simp only [hw], rfl⟩
  | event hw ho => exact .inl ⟨by simp only [hw], rfl⟩
  | silent hw ho hi hm =>
    refine .inl ⟨?_, rfl⟩
    simp only [hw, ho, Option.bind_some, hi, Option.map_none]
  | @outgoing p o _ _ _ _ i c hw ho hi hm =>
    obtain ⟨k, hk, -, -⟩ := hm.pool_set
    refine .inr ⟨p, c, hw, .call (List.mem_of_getElem? ho) hk, ?_, rfl⟩
    simp only [hw, ho, Option.bind_some, hi, Option.map_some]
  | stop hw => exact .inl ⟨by cases w.process <;> rfl, rfl⟩

/-- A step changes the store as the command does that it executes. -/
theorem World.Moves.store_eq {w w' : World T V} {move : Move} (hm : World.Moves J P w move w') :
    w'.store = (w.issued move).elim w.store fun c => apply c w.store := by
  rcases hm.command with ⟨hissued, hstore⟩ | ⟨_, c, -, -, hissued, hstore⟩
  · rw [hissued, hstore]
    rfl
  · rw [hissued, hstore]
    rfl

/-- What the programs of a process offer is local to the region. -/
theorem Process.Bounded.local {p : Process T V} {c : Cmd T} (h : p.Bounded Inv R J P) (hs : Inv s)
    (hc : p.Offers J P c) : Local exec (cells T) R c := by
  cases hc with
  | connecting hp | announcing hp | stopping hp =>
    have hmain := h.main
    rw [hp] at hmain
    exact Confined.local hmain hs
  | job hp =>
    have hjobs := h.jobs
    rw [hp] at hjobs
    exact hjobs.local hs
  | call ho hk => exact (h.calls _ ho _ (List.mem_of_getElem? hk)).local hs

/-- The command of a step is local to the region. -/
theorem World.Bounded.local {w w' : World T V} {move : Move} {c : Cmd T}
    (h : w.Bounded Inv R J P) (hm : World.Moves J P w move w') (hc : w.issued move = some c) :
    Local exec (cells T) R c := by
  rcases hm.command with ⟨hnone, -⟩ | ⟨p, c', hw, hoffers, hc', -⟩
  · rw [hnone] at hc
    cases hc
  · obtain rfl := Option.some.inj (hc'.symm.trans hc)
    exact (h.process p hw).local h.store hoffers

end Rule

end TwilightDispatch
