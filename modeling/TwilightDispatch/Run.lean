import TwilightDispatch.UpdateRule

/-!
# Runs

A run is a list of steps, each of which handles one event or sweeps the expired keys, to its end.
`stateAfter` is the state a run leaves, `ledgerAfter` the state together with the commands the run
issued, each with the time of its step.

An invariant that the operations keep holds after every run (`Stable.stateAfter`).
-/

namespace TwilightDispatch

open Atomic Redis

variable {T V : Type}

/-! ## Steps and runs -/

inductive Job where
  | event (event : Event)
  | sweep

structure Step where
  env : Env
  job : Job

/-- What a step executes. Nobody waits for the result of an event. -/
def Step.prog (J : Json T V) (cfg : Config) (botId : Id .user) (step : Step) :
    Prog (interface T) Unit :=
  match step.job with
  | .event event => do
    let _ ← ExceptT.run (update J cfg botId step.env event)
    return ()
  | .sweep => sweep J step.env

/-- The state after a step. -/
def Step.next (J : Json T V) (cfg : Config) (botId : Id .user) (s : Store T) (step : Step) :
    Store T := ((step.prog J cfg botId).run exec s).2

/-- The state after a run from the empty store. -/
def stateAfter (J : Json T V) (cfg : Config) (botId : Id .user) (steps : List Step) : Store T :=
  steps.foldl (Step.next J cfg botId) Store.empty

/-- A state and the commands that led to it. -/
abbrev Ledger (T : Type) := Store T × List (FormattedDateTime × Cmd T)

/-- The state and the commands after a step. -/
def Step.record (J : Json T V) (cfg : Config) (botId : Id .user) (l : Ledger T) (step : Step) :
    Ledger T := ((step.prog J cfg botId).run (recorded exec step.env.now) l).2

/-- The state and the commands after a run from the empty store. -/
def ledgerAfter (J : Json T V) (cfg : Config) (botId : Id .user) (steps : List Step) : Ledger T :=
  steps.foldl (Step.record J cfg botId) (Store.empty, [])

/-- Every entity a step names satisfies `ok`. -/
def Step.Ok (ok : Entity → Prop) (step : Step) : Prop :=
  match step.job with
  | .event event => ∀ e, event.Touches e → ok e
  | .sweep => True

theorem Step.ok_true (step : Step) : step.Ok fun _ => True := by
  rcases step with ⟨env, event | _⟩
  · exact fun _ _ => trivial
  · trivial

theorem Scope.any_covers {ok : Entity → Prop} {event : Event}
    (h : ∀ e, event.Touches e → ok e) : (Scope.any ok).Covers event := ⟨h, fun _ _ => trivial⟩

variable {J : Json T V} {cfg : Config} {botId : Id .user}

@[simp] theorem stateAfter_nil : stateAfter J cfg botId [] = Store.empty := rfl

@[simp] theorem stateAfter_append (steps : List Step) (step : Step) :
    stateAfter J cfg botId (steps ++ [step]) =
      step.next J cfg botId (stateAfter J cfg botId steps) := by
  simp [stateAfter]

@[simp] theorem ledgerAfter_append (steps : List Step) (step : Step) :
    ledgerAfter J cfg botId (steps ++ [step]) =
      step.record J cfg botId (ledgerAfter J cfg botId steps) := by
  simp [ledgerAfter]

/-- The ledger of a run ends in the state of the run. -/
theorem ledgerAfter_fst (steps : List Step) :
    (ledgerAfter J cfg botId steps).1 = stateAfter J cfg botId steps := by
  induction steps using List.reverseRecOn with
  | nil => rfl
  | append_singleton steps step ih =>
    rw [ledgerAfter_append, stateAfter_append, ← ih]
    unfold Step.record Step.next
    rw [← Prod.mk.eta (p := ledgerAfter J cfg botId steps), Prog.run_recorded]

theorem Step.next_event {env : Env} {event : Event} (s : Store T) :
    Step.next J cfg botId s ⟨env, .event event⟩ =
      (Fallible.run exec (update J cfg botId env event) s).2 := by
  unfold Step.next Step.prog
  rw [Prog.run_bind]
  rfl

theorem Step.next_sweep {env : Env} (s : Store T) :
    Step.next J cfg botId s ⟨env, .sweep⟩ =
      apply (.hdel EXPIRY_KEYS (expired J env s)) (dropAll (expired J env s) s) := by
  unfold Step.next Step.prog
  rw [run_sweep]

/-! ## Invariants of runs -/

section Stable

variable {ok : Entity → Prop} {Inv : Store T → Prop}

/-- An invariant that does not look at the hashes and is kept by writes of entities and by
deletions of any keys. -/
structure Stable (J : Json T V) (ok : Entity → Prop) (Inv : Store T → Prop) : Prop where
  put : ∀ kvs s, (∀ kv ∈ kvs, Writes ok kv) → Inv s → Inv (putAll J kvs s)
  drop : ∀ keys s, Inv s → Inv (dropAll keys s)
  hash : ∀ s s' : Store T, s.strings = s'.strings → s.sets = s'.sets → Inv s → Inv s'

namespace Stable

variable (h : Stable J ok Inv)
include h

theorem keeps_delAll (orders : Orders) (keys : List String) :
    Keeps exec Inv (delAll orders keys) fun _ => True :=
  .of_run fun s hs => by
    rw [run_delAll]
    exact h.drop keys s hs

theorem closed (env : Env) : Closed (fun x Q => Keeps exec Inv x Q) J cfg env (.any ok) := by
  refine .of_keeps (fun c hc => .of_run fun s hs => ?_) (fun kvs hkvs => .of_run fun s hs => ?_)
    (fun kvs exps hkvs hexps => .of_run fun s hs => ?_) fun keys _ => h.keeps_delAll env.orders keys
  · cases c with
    | get | mget | smembers | scard | hgetall => exact hs
    | _ => exact hc.elim
  · rw [run_setAll]
    exact h.put kvs s (fun kv hkv => (hkvs kv hkv).1) hs
  · rw [Fallible.run_bind_ok (run_setAll kvs), run_expireAll]
    have hput := h.put kvs s hkvs hs
    cases deadlines J env.now exps with
    | none => exact hput
    | some fields => exact h.hash (putAll J kvs s) _ rfl rfl hput

theorem next {step : Step} (hok : step.Ok ok) {s : Store T} (hs : Inv s) :
    Inv (step.next J cfg botId s) := by
  rcases step with ⟨env, event | _⟩
  · rw [Step.next_event]
    exact ((h.closed env).update_of_drop (Scope.any_covers hok).admits
      (fun _ _ keys _ => h.keeps_delAll env.orders keys) s hs).1
  · rw [Step.next_sweep]
    exact h.hash (dropAll (expired J env s) s) _ rfl rfl (h.drop _ s hs)

/-- What the operations keep holds after every run. -/
theorem stateAfter (h0 : Inv Store.empty) {steps : List Step} (hok : ∀ step ∈ steps, step.Ok ok) :
    Inv (stateAfter J cfg botId steps) := by
  induction steps using List.reverseRecOn with
  | nil => exact h0
  | append_singleton steps step ih =>
    rw [stateAfter_append]
    refine h.next (hok step (by simp)) (ih fun step hstep => hok step ?_)
    exact List.mem_append_left _ hstep

end Stable

end Stable

end TwilightDispatch
