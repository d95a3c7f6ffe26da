import TwilightDispatch.ProcessRule
import TwilightDispatch.Reported
import TwilightDispatch.Resume
import TwilightDispatch.Unfailing

/-!
# Processes that do not fail

The programs of `Unfailing.lean`, where they run: in processes that follow one another on one Redis, each
of which may end between any two steps. As long as the settings and the clock are those of a process that
can be served, `real_main` never returns an error, and every event whose task has finished has been
reported in full, with an old value of its own (`service_steady`).
-/

namespace TwilightDispatch

open Atomic Redis

variable {T V : Type} {J : Json T V} {P : PayloadJson V} {cfg : Config} {botId : Id .user} {s s' : Store T}

/-! ## Related lists -/

section Lists

variable {α β : Type} {R : α → β → Prop} {l : List α} {l' : List β} {i : ℕ} {a : α} {b : β}

theorem exists_of_forall₂ (h : List.Forall₂ R l l') (hb : l'[i]? = some b) :
    ∃ a, l[i]? = some a ∧ R a b := by
  induction h generalizing i with
  | nil => exact absurd hb (by simp)
  | @cons a b l l' hab hl ih =>
    cases i with
    | zero => exact ⟨a, rfl, Option.some.inj hb ▸ hab⟩
    | succ i => exact ih hb

theorem forall₂_set (h : List.Forall₂ R l l') (ha : l[i]? = some a) (hab : R a b) :
    List.Forall₂ R l (l'.set i b) := by
  induction h generalizing i with
  | nil => exact .nil
  | @cons a' b' l l' hab' hl ih =>
    cases i with
    | zero =>
      obtain rfl := Option.some.inj ha
      exact .cons hab hl
    | succ i => exact .cons hab' (ih ha)

end Lists

/-! ## The tasks of a call -/

/-- What the task of an event returns when nothing fails: all that it has to report. -/
def Received.Completes (J : Json T V) (P : PayloadJson V) (item : Received) (effects : List Effect) :
    Prop :=
  ∃ old, item.event.Returns J old ∧ effects = item.report P old

/-- The deadlines an event may set are dates. The event of a payload sets none. -/
def Received.Dated (cfg : Config) (item : Received) : Prop :=
  item.event.kind ≠ .shardPayload → TwilightDispatch.Dated cfg item.env.now

/-- The update of a task does not panic. -/
theorem Received.ends_cacheUpdate (hJ : J.Lawful) {item : Received} (h : item.Dated cfg)
    (hin : item.inTask cfg = true) :
    Safe exec (Texts J) (item.cacheUpdate J cfg botId)
      fun r => (∃ old, r = .ok old ∧ item.event.Returns J old) ∨ ∃ err, r = .error (.error err) := by
  have hkind : item.event.kind ≠ .shardPayload := by
    intro hk
    rw [Received.inTask_of_payload hk] at hin
    cases hin
  refine Safe.mono (ends_update hJ (h hkind) item.event) fun r hr => hr.imp_right ?_
  rintro ⟨_, rfl, -, err, rfl⟩
  exact ⟨_, rfl⟩

theorem Received.safe_task (hJ : J.Lawful) {item : Received} (h : item.Dated cfg) :
    Safe exec (Texts J) (item.task J P cfg botId) (item.Completes J P) := by
  unfold Received.task
  split_ifs with hin
  · refine Safe.bind (Received.ends_cacheUpdate hJ h hin) ?_
    rintro _ (⟨old, rfl, hold⟩ | ⟨err, rfl⟩)
    · exact .ret ⟨old, hold, rfl⟩
    · exact .ret ⟨none, item.event.returns_none, rfl⟩
  · exact .ret ⟨none, item.event.returns_none, rfl⟩

theorem Received.safe_cacheUpdate (hJ : J.Lawful) {item : Received} (h : item.Dated cfg)
    (hin : item.inLoop cfg = true) :
    Safe exec (Texts J) (item.cacheUpdate J cfg botId) fun _ => True := by
  have hkind : item.event.kind ≠ .shardPayload := by
    intro hk
    simp [Received.inLoop, hk] at hin
  exact Safe.mono (ends_update hJ (h hkind) item.event) fun _ _ => trivial

theorem Received.safe_prog (hJ : J.Lawful) {item : Received} (h : item.Dated cfg) :
    Safe exec (Texts J) (item.prog J P cfg botId) (item.Completes J P) := by
  unfold Received.prog
  split_ifs with hin
  · exact Safe.bind (Received.safe_cacheUpdate hJ h hin) fun _ _ => Received.safe_task hJ h
  · exact Received.safe_task hJ h

/-- What is left to do for each event of a stream does not fail, and what has been reported is what the
tasks have returned. -/
structure Outgoing.Steady (J : Json T V) (P : PayloadJson V) (cfg : Config) (botId : Id .user)
    (o : Outgoing T V) : Prop where
  pool : List.Forall₂ (fun item p => Safe exec (Texts J) p (item.Completes J P)) o.items
    (o.pool J P cfg botId)
  accounted : o.Accounted P

namespace Outgoing.Steady

variable {o o' : Outgoing T V}

theorem start : Outgoing.Steady J P cfg botId (.start [] : Outgoing T V) := ⟨.nil, .start []⟩

theorem receive (h : o.Steady J P cfg botId) (hJ : J.Lawful) {item : Received} (hitem : item.Dated cfg) :
    Outgoing.Steady J P cfg botId { o with events := o.events ++ [item] } := by
  refine ⟨?_, h.accounted.receive _⟩
  unfold Outgoing.items Outgoing.pool
  rw [List.map_append, ← List.append_assoc, ← List.append_assoc]
  exact List.rel_append h.pool (.cons (Received.safe_prog hJ hitem) .nil)

theorem silent (h : o.Steady J P cfg botId) (hm : Outgoing.Moves J P cfg botId o s none o' s') :
    o'.Steady J P cfg botId := by
  refine ⟨?_, h.accounted.moves hm⟩
  rw [hm.items, hm.pool_eq.1]
  exact h.pool

theorem command {i : ℕ} {c : Cmd T} (h : o.Steady J P cfg botId)
    (hm : Outgoing.Moves J P cfg botId o s (some (i, c)) o' s') (hs : Texts J s) :
    Texts J (apply c s) ∧ o'.Steady J P cfg botId := by
  obtain ⟨k, hk, hpool, -⟩ := hm.pool_set
  obtain ⟨item, hitem, hsafe⟩ := exists_of_forall₂ h.pool hk
  refine ⟨hsafe.keeps hs, ?_, h.accounted.moves hm⟩
  rw [hm.items, hpool]
  exact forall₂_set h.pool hitem (hsafe.next hs)

/-- An event whose task has finished has been reported in full. -/
theorem sentBy_of_finished (h : o.Steady J P cfg botId) (hs : Texts J s) {i : ℕ} {t : Task T}
    (ht : o.tasks[i]? = some t) (hfin : t.finished = true) : t.item.Completes J P (o.sentBy i) := by
  obtain ⟨effects, hprog, hsent⟩ := h.accounted.sentBy_of_finished ht hfin
  have hpool : (o.pool J P cfg botId)[i]? = some t.prog := getElem?_pool_task ht
  obtain ⟨item, hitem, hsafe⟩ := exists_of_forall₂ h.pool hpool
  obtain rfl := Option.some.inj (hitem.symm.trans (Outgoing.getElem?_items ht))
  rw [hprog] at hsafe
  exact hsent ▸ hsafe.of_ret hs

end Outgoing.Steady

/-! ## Processes -/

/-- What is left of `real_main` does not fail. -/
def Main.Steady (J : Json T V) (settings : Settings) : Main T → Prop
  | .connecting prog => Safe exec (Texts J) prog fun r =>
      ∃ a, r = .ok a ∧ settings.Partitions a.1
  | .announcing _ prog => Safe exec (Texts J) prog fun r => ∃ a, r = .ok a ∧ True
  | .running => True
  | .stopping _ prog => Safe exec (Texts J) prog fun r => ∃ a, r = .ok a ∧ True

section World

variable (J P)

structure Process.Steady (p : Process T V) : Prop where
  main : p.main.Steady J p.settings
  jobs : Safe exec (Texts J) p.jobs fun _ => True
  calls : ∀ o ∈ p.calls, o.Steady J P p.settings.state p.settings.botId

structure World.Steady (w : World T V) : Prop where
  store : Texts J w.store
  process : ∀ p, w.process = some p → p.Steady J P

/-- The step is one of a process that can be served: it is started with valid settings, and the deadlines
it sets are dates. -/
def World.Serves (w : World T V) : Move → Prop
  | .start settings _ => settings.Valid
  | .event _ item => ∀ p, w.process = some p → item.Dated p.settings.state
  | _ => True

instance (settings : Settings) : Decidable settings.Valid :=
  decidable_of_iff (settings.shardsStart ≤ settings.shardsEnd ∧
    settings.shardsEnd < settings.shardsTotal ∧ 1 ≤ settings.clusters)
    ⟨fun h => ⟨h.1, h.2.1, h.2.2⟩, fun h => ⟨h.start_le, h.end_lt, h.clusters_pos⟩⟩

instance (now : FormattedDateTime) : Decidable (Dated cfg now) :=
  decidable_of_iff (now.add (milliseconds (asI64 cfg.stateMemberTtl)) ≠ none ∧
    now.add (milliseconds (asI64 cfg.stateMessageTtl)) ≠ none)
    ⟨fun h => ⟨h.1, h.2⟩, fun h => ⟨h.member, h.message⟩⟩

instance (item : Received) : Decidable (item.Dated cfg) := inferInstanceAs (Decidable (_ → _))

instance : DecidableRel (World.Serves (T := T) (V := V)) := fun w move =>
  match move with
  | .start settings _ => inferInstanceAs (Decidable settings.Valid)
  | .event _ item =>
    decidable_of_iff ((w.process.all fun p => item.Dated p.settings.state) = true)
      (by simp [World.Serves, Option.all_eq_true])
  | .main _ | .shutDown _ _ | .round _ _ | .job | .shard _ _ | .dispatch _ _ _ _ _ | .outgoing _ _
  | .stop => .isTrue trivial

variable {J P} {w w' : World T V} {move : Move}

/-- A step leaves programs that do not fail. -/
theorem World.Steady.moves (h : w.Steady J P) (hJ : J.Lawful) (hok : w.Serves move)
    (hm : World.Moves J P w move w') : w'.Steady J P := by
  have hgo : ∀ {p' : Process T V}, p'.Steady J P → World.Steady J P { w with process := some p' } :=
    fun hp => ⟨h.store, fun q hq => Option.some.inj hq ▸ hp⟩
  have hcmd : ∀ {c : Cmd T} {p' : Process T V}, Texts J (apply c w.store) → p'.Steady J P →
      (w.execute c p').Steady J P := fun hs hp => ⟨hs, fun q hq => Option.some.inj hq ▸ hp⟩
  cases hm with
  | @start settings orders hw =>
    exact hgo ⟨succeeds_getClusters hJ hok, .ret trivial, fun _ ho => nomatch ho⟩
  | @connect p c k env hw hp =>
    obtain ⟨hmain, hjobs, hcalls⟩ := h.process p hw
    rw [hp] at hmain
    exact hcmd (Safe.keeps hmain h.store) ⟨Safe.next hmain h.store, hjobs, hcalls⟩
  | @connected p clusters info env hw hp =>
    obtain ⟨-, hjobs, hcalls⟩ := h.process p hw
    exact hgo ⟨succeeds_announce p.settings, hjobs, hcalls⟩
  | @announce p clusters c k env hw hp =>
    obtain ⟨hmain, hjobs, hcalls⟩ := h.process p hw
    rw [hp] at hmain
    exact hcmd (Safe.keeps hmain h.store) ⟨Safe.next hmain h.store, hjobs, hcalls⟩
  | @announced p clusters env hw hp =>
    obtain ⟨-, hjobs, -⟩ := h.process p hw
    refine hgo ⟨trivial, hjobs, fun o ho => ?_⟩
    obtain ⟨_, -, rfl⟩ := List.mem_map.mp ho
    exact .start
  | @save p resumable c k env hw hp =>
    obtain ⟨hmain, hjobs, hcalls⟩ := h.process p hw
    rw [hp] at hmain
    exact hcmd (Safe.keeps hmain h.store) ⟨Safe.next hmain h.store, hjobs, hcalls⟩
  | @shutDown p resumable orders hw hp hr =>
    obtain ⟨-, hjobs, hcalls⟩ := h.process p hw
    exact hgo ⟨succeeds_saveSessions resumable, hjobs, hcalls⟩
  | @round p env statuses hw hp hj =>
    obtain ⟨hmain, -, hcalls⟩ := h.process p hw
    exact hgo ⟨hmain, safe_jobsRound statuses p.shards, hcalls⟩
  | @job p c k hw hp =>
    obtain ⟨hmain, hjobs, hcalls⟩ := h.process p hw
    rw [hp] at hjobs
    exact hcmd (hjobs.keeps h.store) ⟨hmain, hjobs.next h.store, hcalls⟩
  | @shard p shard info hw hp hi =>
    obtain ⟨hmain, hjobs, hcalls⟩ := h.process p hw
    exact ⟨h.store, fun q hq => Option.some.inj hq ▸ ⟨hmain, hjobs, hcalls⟩⟩
  | @dispatch p o info shard seq call bytes env hw ho hs hlt =>
    obtain ⟨hmain, hjobs, hcalls⟩ := h.process p hw
    refine hgo ⟨hmain, hjobs, fun q hq => ?_⟩
    rcases List.mem_or_eq_of_mem_set hq with hq | rfl
    · exact hcalls q hq
    · exact (hcalls o (List.mem_of_getElem? ho)).receive hJ fun hkind => absurd rfl hkind
  | @event p o call item hw ho =>
    obtain ⟨hmain, hjobs, hcalls⟩ := h.process p hw
    refine hgo ⟨hmain, hjobs, fun q hq => ?_⟩
    rcases List.mem_or_eq_of_mem_set hq with hq | rfl
    · exact hcalls q hq
    · exact (hcalls o (List.mem_of_getElem? ho)).receive hJ (hok p hw)
  | @silent p o o' s' call action hw ho hi hmoves =>
    obtain ⟨hmain, hjobs, hcalls⟩ := h.process p hw
    refine hgo ⟨hmain, hjobs, fun q hq => ?_⟩
    rcases List.mem_or_eq_of_mem_set hq with hq | rfl
    · exact hcalls q hq
    · exact (hcalls o (List.mem_of_getElem? ho)).silent hmoves
  | @outgoing p o o' s' call action i c hw ho hi hmoves =>
    obtain ⟨hmain, hjobs, hcalls⟩ := h.process p hw
    obtain ⟨hs, ho'⟩ := (hcalls o (List.mem_of_getElem? ho)).command hmoves h.store
    refine hcmd hs ⟨hmain, hjobs, fun q hq => ?_⟩
    rcases List.mem_or_eq_of_mem_set hq with hq | rfl
    · exact hcalls q hq
    · exact ho'
  | stop hw => exact ⟨h.store, fun _ hp => nomatch hp⟩

end World

end TwilightDispatch
