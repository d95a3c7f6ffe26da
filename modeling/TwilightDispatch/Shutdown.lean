import TwilightDispatch.Reported
import TwilightDispatch.Resume

/-!
# The end of a process

When it is shut down, `real_main` saves the sessions that `down_resumable` returned. The jobs go on
meanwhile, so a dump that began earlier may still be written afterwards (`saved_last`). And
`real_main` does not wait for `handler::outgoing`, so a dispatch that the saved sequence covers may
still be in a stream (`none_lost_missed`), unless the streams are drained before (`none_lost_drained`).
-/

namespace TwilightDispatch

open Atomic Redis

variable {T V : Type} {J : Json T V} {P : PayloadJson V} {w w' : World T V} {p : Process T V}
  {good : List (UInt64 × String) → Sessions → Prop}

variable (J) in
/-- A process that is done leaves the sessions that `down_resumable` returned. -/
def World.SavedLast (w : World T V) : Prop :=
  ∀ p resumable, w.process = some p → p.main = .stopping resumable (.ret (.ok ())) →
    w.store.strings SESSIONS_KEY = some (J.text (.sessions (savedSessions resumable)))

variable (J) in
/-- When `run_jobs` writes the sessions after `real_main` has saved them, it writes the same ones. -/
def World.JobsAgree (w : World T V) : Move → Prop
  | .job => ∀ p resumable t k, w.process = some p →
      p.main = .stopping resumable (.ret (.ok ())) →
      p.jobs = .cmd (.mset [(SESSIONS_KEY, t)]) k →
      t = J.text (.sessions (savedSessions resumable))
  | _ => True

/-- A step that leaves the sessions and the main function alone. -/
theorem World.SavedLast.of_eq {p' : Process T V} (h : w.SavedLast J) (hw : w.process = some p)
    (hs : w'.store.strings SESSIONS_KEY = w.store.strings SESSIONS_KEY)
    (hw' : w'.process = some p') (hmain : p'.main = p.main) : w'.SavedLast J := by
  intro q resumable hq hp
  obtain rfl := Option.some.inj (hw'.symm.trans hq)
  exact hs.trans (h p resumable hw (hmain.symm.trans hp))

theorem World.SavedLast.job {c : Cmd T} {k : (interface T).Reply c → Prog (interface T) Unit}
    (h : w.SavedLast J) (hi : w.Intact J P good) (hok : w.JobsAgree J .job)
    (hw : w.process = some p) (hj : p.jobs = .cmd c k) :
    World.SavedLast J (w.execute c { p with jobs := k (.ok (reply c w.store)) }) := by
  have hshape := (hi.process p hw).jobs
  rw [hj] at hshape
  cases hshape with
  | statuses =>
    refine h.of_eq hw ?_ rfl rfl
    rw [World.store_execute]
    simp [show STATUSES_KEY ≠ SESSIONS_KEY by decide]
  | sessions =>
    -- the dump of the jobs
    intro q resumable hq hp
    obtain rfl := Option.some.inj hq
    rw [World.store_execute, strings_mset, lastOf_cons, if_pos rfl, hok p resumable _ _ hw hp hj]
    rfl
  | sweeping hs =>
    exact h.of_eq hw (Local.strings_quiet (hs.local hi.noGateway) (by simp [gatewayKeys]) _) rfl rfl

theorem World.SavedLast.moves {move : Move} (h : w.SavedLast J) (hi : w.Intact J P good)
    (hok : w.JobsAgree J move) (hm : World.Moves J P w move w') : w'.SavedLast J := by
  cases hm with
  | job hw hj => exact h.job hi hok hw hj
  | @save p resumable c k _ hw hp =>
    have hshape := (hi.process p hw).main
    rw [hp] at hshape
    intro q resumable' hq hmain
    obtain rfl := Option.some.inj hq
    obtain ⟨rfl, -⟩ := Main.stopping.inj hmain
    obtain ⟨-, ⟨orders, he⟩ | he⟩ := hshape
    · rw [saveSessions, run_set_eq (colon_notMem_of_gateway (by simp [gatewayKeys]))] at he
      cases he
      rw [World.store_execute]
      simp
    · cases he
  | @shutDown p resumable orders hw =>
    intro q resumable' hq hmain
    obtain rfl := Option.some.inj hq
    have hprog := (Main.stopping.inj hmain).2
    rw [saveSessions, run_set_eq (colon_notMem_of_gateway (by simp [gatewayKeys]))] at hprog
    cases hprog
  | start | connect | connected | announce | announced =>
    intro q resumable hq hmain
    obtain rfl := Option.some.inj hq
    cases hmain
  | round hw | shard hw | dispatch hw | event hw | silent hw => exact h.of_eq hw rfl rfl rfl
  | outgoing hw ho _ hm =>
    have hquiet := (hi.process _ hw).calls _ (List.mem_of_getElem? ho)
    exact h.of_eq hw (Local.strings_quiet (hquiet.command hm hi.noGateway).1 (by simp [gatewayKeys]) _)
      rfl rfl
  | stop =>
    intro q resumable hq
    cases hq

/-- **The sessions saved at the end are final**, in every sequence of processes whose jobs write none
but the same sessions afterwards. -/
theorem saved_last (h : World.Reached J P (World.JobsAgree J) w) : w.SavedLast J := by
  induction h with
  | init =>
    intro q resumable hq
    cases hq
  | @step w w' move hr hok hstep ih =>
    have hi : w.Intact J P fun _ _ => True :=
      hr.intact (fun _ _ _ _ _ => trivial) (fun _ _ _ _ _ _ _ => trivial)
        fun _ _ _ _ _ _ => trivial
    exact ih.moves hi hok (World.moves_of_step hstep)

def Move.isJob : Move → Bool
  | .job => true
  | _ => false

/-- The sequence stored for the first shard. -/
def World.storedSequence (w : World Item V) : Option ℕ :=
  match w.store.strings SESSIONS_KEY with
  | some (.sessions sessions) => (sessions.lookup (toString (0 : UInt64))).map (·.sequence)
  | _ => none

/-- The sequence that `down_resumable` returned for the first shard, once it has been saved. -/
def World.savedSequence (w : World T V) : Option ℕ :=
  w.process.bind fun p => match p.main with
  | .stopping resumable (.ret (.ok ())) =>
    ((savedSessions resumable).lookup (toString (0 : UInt64))).map (·.sequence)
  | _ => none

theorem World.done_of_savedSequence {n : ℕ} (h : w.savedSequence = some n) :
    ∃ p, w.process = some p ∧ ∃ resumable, p.main = .stopping resumable (.ret (.ok ())) := by
  obtain ⟨p, hw, hp⟩ := Option.bind_eq_some_iff.mp h
  split at hp
  · next resumable hmain => exact ⟨p, hw, resumable, hmain⟩
  · cases hp

theorem World.stored_of_storedSequence {w : World Item V} {n : ℕ}
    (h : w.storedSequence = some n) : ∃ t sessions value,
      w.store.strings SESSIONS_KEY = some t ∧ Json.plain.sessions t = .ok sessions ∧
      sessions.lookup (toString (0 : UInt64)) = some value ∧ value.sequence = n := by
  unfold World.storedSequence at h
  split at h
  · next sessions hs =>
    obtain ⟨value, hvalue, hn⟩ := Option.map_eq_some_iff.mp h
    exact ⟨_, sessions, value, hs, rfl, hvalue, hn⟩
  · cases h

theorem World.storedSequence_eq {w : World Item Item} (h : w.SavedLast Json.plain) {n : ℕ}
    (hn : w.savedSequence = some n) : w.storedSequence = some n := by
  obtain ⟨p, hw, hp⟩ := Option.bind_eq_some_iff.mp hn
  split at hp
  · next resumable hmain =>
    rw [World.storedSequence, h p resumable hw hmain]
    exact hp
  · cases hp

/-- The process that is shut down without jobs leaves what it has saved. -/
theorem saved_last_alone : ∃ w : World Item Item, w.savedSequence = some 1 ∧
    w.SavedLast Json.plain := by
  have h : (World.perform Json.plain .empty (fun _ move => move.isJob = false) (startMoves 2 5 ++
      ([.shard 0 ⟨some "first", 1⟩, .shutDown [(0, ⟨none, "first", 1⟩)] .sorted,
        .main (.at (.of 0))] : List Move)) .init).any (fun w => w.savedSequence = some 1) = true := by
    decide +kernel
  obtain ⟨w, hw, hsaved⟩ := (Option.any_eq_true _ _).mp h
  have hagree : ∀ (w : World Item Item) move, move.isJob = false → w.JobsAgree Json.plain move := by
    intro w move hmove
    cases move with
    | job => cases hmove
    | _ => trivial
  exact ⟨w, of_decide_eq_true hsaved, saved_last ((World.Reached.init.perform hw).mono hagree)⟩

/-- A dump that began before the shutdown replaces the saved sessions. -/
theorem saved_overwritten : ∃ w : World Item Item,
    World.Reached Json.plain .empty (fun _ _ => True) w ∧ ¬ w.SavedLast Json.plain := by
  have h : (World.perform Json.plain .empty (fun _ _ => True) (startMoves 2 5 ++
      ([.shard 0 ⟨some "first", 1⟩, .round (.at (.of 0)) [], .job, .shard 0 ⟨some "first", 2⟩,
        .shutDown [(0, ⟨none, "first", 2⟩)] .sorted, .main (.at (.of 0)), .job] : List Move)) .init).any
      (fun w => w.savedSequence = some 2 && w.storedSequence = some 1) = true := by decide +kernel
  obtain ⟨w, hw, h⟩ := (Option.any_eq_true _ _).mp h
  rw [Bool.and_eq_true, decide_eq_true_eq, decide_eq_true_eq] at h
  refine ⟨w, World.Reached.init.perform hw, fun hlast => ?_⟩
  have heq := h.2.symm.trans (World.storedSequence_eq hlast h.1)
  exact absurd heq (by decide)

/-! ## Dispatches -/

/-- What has been sent is accounted for in every call, and every dispatch that a shard has received is
a payload of a stream. -/
structure Process.Delivers (P : PayloadJson V) (p : Process T V) : Prop where
  calls : ∀ o ∈ p.calls, o.Accounted P
  dispatched : ∀ d ∈ p.dispatched, ∃ o, p.calls[d.call]? = some o ∧
    ∃ item, o.items[d.position]? = some item ∧ item.event.kind = .shardPayload

/-- What holds of one of the calls holds of one when another goes on, if it does not undo it. -/
theorem exists_call_set {calls : List (Outgoing T V)} {R : Outgoing T V → Prop}
    {o o' : Outgoing T V} {call i : ℕ} (ho : calls[call]? = some o) (hR : R o → R o')
    (h : ∃ q, calls[i]? = some q ∧ R q) : ∃ q, (calls.set call o')[i]? = some q ∧ R q := by
  obtain ⟨q, hq, hRq⟩ := h
  by_cases hcall : call = i
  · subst hcall
    obtain rfl := Option.some.inj (ho.symm.trans hq)
    exact ⟨o', List.getElem?_set_self (List.getElem?_eq_some_iff.mp ho).1, hR hRq⟩
  · exact ⟨q, (List.getElem?_set_ne hcall).trans hq, hRq⟩

/-- One call goes on, and keeps its events. -/
theorem Process.Delivers.with_call {o o' : Outgoing T V} {call : ℕ} (h : p.Delivers P)
    (ho : p.calls[call]? = some o) (ho' : o'.Accounted P)
    (hitems : ∀ (n : ℕ) item, o.items[n]? = some item → o'.items[n]? = some item) :
    Process.Delivers P { p with calls := p.calls.set call o' } where
  calls q hq := by
    rcases List.mem_or_eq_of_mem_set hq with hq | rfl
    · exact h.calls q hq
    · exact ho'
  dispatched d hd := by
    refine exists_call_set ho ?_ (h.dispatched d hd)
    rintro ⟨item, hitem, hkind⟩
    exact ⟨item, hitems _ _ hitem, hkind⟩

theorem Outgoing.items_receive (o : Outgoing T V) (item : Received) :
    Outgoing.items { o with events := o.events ++ [item] } = o.items ++ [item] := by
  simp [Outgoing.items]

theorem Process.Delivers.moves {move : Move} (h : ∀ p ∈ w.process, p.Delivers P)
    (hi : w.Intact J P good) (hm : World.Moves J P w move w') :
    ∀ p ∈ w'.process, p.Delivers P := by
  have hreceive : ∀ {p : Process T V} {o : Outgoing T V} {call : ℕ} (item : Received),
      w.process = some p → p.calls[call]? = some o →
      Process.Delivers P { p with
        calls := p.calls.set call { o with events := o.events ++ [item] } } := by
    intro p o call item hw ho
    have hdel := h p hw
    refine hdel.with_call ho ((hdel.calls o (List.mem_of_getElem? ho)).receive _) fun n item' hn => ?_
    rw [Outgoing.items_receive]
    exact getElem?_append_of_some hn
  cases hm with
  | start =>
    intro q hq
    obtain rfl := Option.some.inj hq
    exact ⟨fun _ ho => (nomatch ho), fun _ hd => (nomatch hd)⟩
  | @announced p clusters _ hw hp =>
    intro q hq
    obtain rfl := Option.some.inj hq
    have hnil := ((hi.process p hw).alone (by rw [hp]; rfl)).2
    refine ⟨fun o ho => ?_, fun d hd => ?_⟩
    · obtain ⟨_, -, rfl⟩ := List.mem_map.mp ho
      exact .start []
    · obtain ⟨o, ho, -⟩ := (h p hw).dispatched d hd
      rw [hnil] at ho
      cases ho
  | connect hw | connected hw | announce hw | save hw | shutDown hw | round hw | job hw | shard hw =>
    intro q hq
    obtain rfl := Option.some.inj hq
    exact ⟨(h _ hw).calls, (h _ hw).dispatched⟩
  | @dispatch p o info shard seq call bytes env hw ho =>
    intro q hq
    obtain rfl := Option.some.inj hq
    have hdel := hreceive ⟨shard.toNat, .shardPayload bytes, env⟩ hw ho
    refine ⟨hdel.calls, fun d hd => ?_⟩
    rcases List.mem_append.mp hd with hd | hd
    · exact hdel.dispatched d hd
    · rw [List.mem_singleton.mp hd]
      refine ⟨_, List.getElem?_set_self (List.getElem?_eq_some_iff.mp ho).1,
        ⟨shard.toNat, .shardPayload bytes, env⟩, ?_, rfl⟩
      rw [Outgoing.items_receive, List.getElem?_append_right le_rfl, Nat.sub_self]
      rfl
  | @event p o call item hw ho =>
    intro q hq
    obtain rfl := Option.some.inj hq
    exact hreceive item hw ho
  | silent hw ho _ hm | outgoing hw ho _ hm =>
    intro q hq
    obtain rfl := Option.some.inj hq
    have hdel := h _ hw
    exact hdel.with_call ho ((hdel.calls _ (List.mem_of_getElem? ho)).moves hm) fun _ _ hn =>
      hm.items ▸ hn
  | stop => exact fun _ hq => nomatch hq

theorem World.Reached.delivers {ok : World T V → Move → Prop} (h : World.Reached J P ok w) :
    ∀ p ∈ w.process, p.Delivers P := by
  induction h with
  | init => exact fun _ hq => nomatch hq
  | @step w w' move hr _ hstep ih =>
    have hi : w.Intact J P fun _ _ => True :=
      hr.intact (fun _ _ _ _ _ => trivial) (fun _ _ _ _ _ _ _ => trivial)
        fun _ _ _ _ _ _ => trivial
    exact Process.Delivers.moves ih hi (World.moves_of_step hstep)

variable (J) in
/-- The process is done, and has received a dispatch that the stored sequence of its shard covers: a
session that is resumed from there does not replay it. -/
def World.Covers (w : World T V) (p : Process T V) (d : Dispatch) : Prop :=
  w.process = some p ∧ (∃ resumable, p.main = .stopping resumable (.ret (.ok ()))) ∧
    d ∈ p.dispatched ∧ ∃ t sessions value, w.store.strings SESSIONS_KEY = some t ∧
      J.sessions t = .ok sessions ∧ sessions.lookup (toString d.shard) = some value ∧
      d.seq ≤ value.sequence

variable (J) in
/-- Every dispatch that is covered has been published. -/
def World.NoneLost (w : World T V) : Prop :=
  ∀ p d, w.Covers J p d → ∃ o, p.calls[d.call]? = some o ∧ Published o d.position

variable (P) in
/-- `real_main` saves the sessions only when nothing is left in the streams or in a task, and a dispatch
is received only before that and has a payload that is published at all. -/
def World.Drained (w : World T V) : Move → Prop
  | .main _ => ∀ p resumable c k, w.process = some p → p.main = .stopping resumable (.cmd c k) →
      ∀ o ∈ p.calls, o.finished = true
  | .dispatch shard _ _ bytes env =>
      (∀ p resumable r, w.process = some p → p.main ≠ .stopping resumable (.ret r)) ∧
        Received.Publishes P ⟨shard.toNat, .shardPayload bytes, env⟩
  | _ => True

/-- The payloads of the dispatches are published at all, and have been once the sessions are saved. -/
structure Process.Forwards (P : PayloadJson V) (p : Process T V) : Prop where
  publishes : ∀ d ∈ p.dispatched, ∃ o, p.calls[d.call]? = some o ∧
    ∃ item, o.items[d.position]? = some item ∧ item.Publishes P
  published : ∀ resumable r, p.main = .stopping resumable (.ret r) →
    ∀ d ∈ p.dispatched, ∃ o, p.calls[d.call]? = some o ∧ Published o d.position

/-- What has been published stays published. -/
theorem Published.moves {cfg : Config} {botId : Id .user} {o o' : Outgoing T V} {s s' : Store T}
    {issue : Option (ℕ × Cmd T)} {i : ℕ} (h : Published o i)
    (hm : Outgoing.Moves J P cfg botId o s issue o' s') : Published o' i := by
  obtain ⟨exchange, kind, body, hmem⟩ := h
  cases hm with
  | effect => exact ⟨exchange, kind, body, List.mem_append_left _ hmem⟩
  | _ => exact ⟨exchange, kind, body, hmem⟩

/-- When a call is done, the payloads of its stream have been published. -/
theorem Outgoing.Accounted.published_of_finished {o : Outgoing T V} {i : ℕ} {item : Received}
    (h : o.Accounted P) (hfin : o.finished = true) (hi : o.items[i]? = some item)
    (hp : item.Publishes P) : Published o i := by
  obtain ⟨t, ht, rfl, htfin⟩ := Outgoing.task_of_finished hfin hi
  have hkind : t.item.event.kind = .shardPayload := by
    obtain ⟨bytes, -, -, -, hevent, -⟩ := hp
    rw [hevent]
    rfl
  exact (published_iff h ht hkind).mpr ⟨htfin, hp⟩

theorem Process.Forwards.with_call {o o' : Outgoing T V} {call : ℕ} (h : p.Forwards P)
    (ho : p.calls[call]? = some o)
    (hitems : ∀ (n : ℕ) item, o.items[n]? = some item → o'.items[n]? = some item)
    (hpublished : ∀ n, Published o n → Published o' n) :
    Process.Forwards P { p with calls := p.calls.set call o' } where
  publishes d hd := by
    refine exists_call_set ho ?_ (h.publishes d hd)
    rintro ⟨item, hitem, hp⟩
    exact ⟨item, hitems _ _ hitem, hp⟩
  published resumable r hmain d hd :=
    exists_call_set ho (hpublished d.position) (h.published resumable r hmain d hd)

theorem Process.Forwards.moves {move : Move} (h : ∀ p ∈ w.process, p.Forwards P)
    (hdel : ∀ p ∈ w.process, p.Delivers P) (hi : w.Intact J P good) (hok : w.Drained P move)
    (hm : World.Moves J P w move w') : ∀ p ∈ w'.process, p.Forwards P := by
  have hreceive : ∀ {p : Process T V} {o : Outgoing T V} {call : ℕ} (item : Received),
      w.process = some p → p.calls[call]? = some o →
      Process.Forwards P { p with
        calls := p.calls.set call { o with events := o.events ++ [item] } } := by
    intro p o call item hw ho
    refine (h p hw).with_call ho (fun n item' hn => ?_) fun n hn => hn
    rw [Outgoing.items_receive]
    exact getElem?_append_of_some hn
  cases hm with
  | start =>
    intro q hq
    obtain rfl := Option.some.inj hq
    exact ⟨fun _ hd => absurd hd List.not_mem_nil, fun _ _ _ _ hd => absurd hd List.not_mem_nil⟩
  | @announced p clusters _ hw hp =>
    intro q hq
    obtain rfl := Option.some.inj hq
    have hnil := ((hi.process p hw).alone (by rw [hp]; rfl)).2
    refine ⟨fun d hd => ?_, fun _ _ hmain => by cases hmain⟩
    obtain ⟨o, ho, -⟩ := (h p hw).publishes d hd
    rw [hnil] at ho
    cases ho
  | connect hw | connected hw | announce hw =>
    intro q hq
    obtain rfl := Option.some.inj hq
    exact ⟨(h _ hw).publishes, fun _ _ hmain => by cases hmain⟩
  | @shutDown p resumable orders hw =>
    intro q hq
    obtain rfl := Option.some.inj hq
    refine ⟨(h _ hw).publishes, fun resumable' r hmain => ?_⟩
    have hprog := (Main.stopping.inj hmain).2
    rw [saveSessions, run_set_eq (colon_notMem_of_gateway (by simp [gatewayKeys]))] at hprog
    cases hprog
  | @save p resumable c k _ hw hp =>
    intro q hq
    obtain rfl := Option.some.inj hq
    -- the sessions are saved when everything that has been received is handled
    refine ⟨(h _ hw).publishes, fun _ _ _ d hd => ?_⟩
    obtain ⟨o, ho, item, hitem, hpublishes⟩ := (h _ hw).publishes d hd
    have hmem := List.mem_of_getElem? ho
    exact ⟨o, ho, ((hdel _ hw).calls o hmem).published_of_finished (hok p resumable c k hw hp o hmem)
      hitem hpublishes⟩
  | round hw | job hw | shard hw =>
    intro q hq
    obtain rfl := Option.some.inj hq
    exact ⟨(h _ hw).publishes, (h _ hw).published⟩
  | @dispatch p o info shard seq call bytes env hw ho =>
    intro q hq
    obtain rfl := Option.some.inj hq
    have hfor := hreceive ⟨shard.toNat, .shardPayload bytes, env⟩ hw ho
    refine ⟨fun d hd => ?_, fun resumable r hmain => absurd hmain (hok.1 p resumable r hw)⟩
    rcases List.mem_append.mp hd with hd | hd
    · exact hfor.publishes d hd
    · rw [List.mem_singleton.mp hd]
      refine ⟨_, List.getElem?_set_self (List.getElem?_eq_some_iff.mp ho).1,
        ⟨shard.toNat, .shardPayload bytes, env⟩, ?_, hok.2⟩
      rw [Outgoing.items_receive, List.getElem?_append_right le_rfl, Nat.sub_self]
      rfl
  | @event p o call item hw ho =>
    intro q hq
    obtain rfl := Option.some.inj hq
    exact hreceive item hw ho
  | silent hw ho _ hm | outgoing hw ho _ hm =>
    intro q hq
    obtain rfl := Option.some.inj hq
    exact (h _ hw).with_call ho (fun _ _ hn => hm.items ▸ hn) fun _ hn => hn.moves hm
  | stop =>
    intro q hq
    cases hq

theorem World.Reached.forwards (h : World.Reached J P (World.Drained P) w) :
    ∀ p ∈ w.process, p.Forwards P := by
  induction h with
  | init =>
    intro q hq
    cases hq
  | @step w w' move hr hok hstep ih =>
    have hi : w.Intact J P fun _ _ => True :=
      hr.intact (fun _ _ _ _ _ => trivial) (fun _ _ _ _ _ _ _ => trivial)
        fun _ _ _ _ _ _ => trivial
    exact Process.Forwards.moves ih hr.delivers hi hok (World.moves_of_step hstep)

/-- **No dispatch is lost**, in every sequence of processes of which each saves the sessions only when
nothing is left in its streams or in a task, and receives no dispatch after that and none that is not
published at all. -/
theorem none_lost_drained (h : World.Reached J P (World.Drained P) w) : w.NoneLost J := by
  rintro p d ⟨hw, ⟨resumable, hmain⟩, hd, -⟩
  exact (h.forwards p hw).published resumable (.ok ()) hmain d hd

/-- A dispatch arrives, and the process is shut down: `actions` is what `outgoing` does meanwhile. -/
def dispatchMoves (actions : List Action) : List Move :=
  startMoves 2 5 ++ [.shard 0 ⟨some "first", 1⟩,
    .dispatch 0 2 0 (rolePayloadText none) (.at (.of 0))] ++ actions.map (.outgoing 0) ++
    [.shutDown [(0, ⟨none, "first", 2⟩)] .sorted, .main (.at (.of 0))]

/-- The dispatch arrives before the process is shut down, and `outgoing` is done before the sessions are
saved. -/
def World.handlesFirst (w : World T V) : Move → Bool
  | .main _ => w.process.all fun p => match p.main with
    | .stopping _ (.cmd _ _) => p.calls.all Outgoing.finished
    | _ => true
  | .dispatch _ _ _ bytes _ => bytes = rolePayloadText none && w.process.all fun p => match p.main with
    | .stopping _ (.ret _) => false
    | _ => true
  | _ => true

theorem World.drained_of_handlesFirst {w : World T String} {move : Move}
    (h : w.handlesFirst move = true) : w.Drained .roles move := by
  cases move with
  | main env =>
    intro p resumable c k hw hp
    simp only [World.handlesFirst, hw, Option.all_some, hp, List.all_eq_true] at h
    exact h
  | dispatch shard seq call bytes env =>
    simp only [World.handlesFirst, Bool.and_eq_true, decide_eq_true_eq] at h
    obtain ⟨rfl, hmain⟩ := h
    refine ⟨fun p resumable r hw hp => ?_, ?_⟩
    · simp [hw, hp] at hmain
    · refine ⟨_, rolePayload none, _, rolePayloadText none, rfl, ?_, rfl, ?_⟩
      · simp [PayloadJson.roles]
      · change PayloadJson.roles.toVec (rolePayload none) = _
        simp [PayloadJson.roles]
  | _ => trivial

/-- A process that is done with one dispatch, which the stored sequence covers. -/
theorem World.covers_first {w : World Item String} (hsaved : w.savedSequence = some 2)
    (hstored : w.storedSequence = some 2)
    (hall : (w.process.all fun p => p.dispatched = [⟨0, 2, 0, 0⟩]) = true) :
    ∃ p, w.Covers Json.roles p ⟨0, 2, 0, 0⟩ := by
  obtain ⟨p, hp, hdone⟩ := World.done_of_savedSequence hsaved
  obtain ⟨t, sessions, value, ht, hsessions, hvalue, hseq⟩ := World.stored_of_storedSequence hstored
  rw [hp] at hall
  exact ⟨p, hp, hdone, of_decide_eq_true hall ▸ List.mem_singleton_self _, t, sessions, value, ht,
    hsessions, hvalue, hseq.ge⟩

/-- The dispatch is published before the sessions are saved. -/
theorem none_lost_handled : ∃ (w : World Item String) (p : Process Item String)
    (o : Outgoing Item String), World.Reached Json.roles .roles (World.Drained .roles) w ∧
      w.Covers Json.roles p ⟨0, 2, 0, 0⟩ ∧ p.calls[0]? = some o ∧ Published o 0 := by
  have h : (World.perform Json.roles .roles (fun w move => w.handlesFirst move = true)
      (dispatchMoves [.loop, .task 0, .task 0]) .init).any
      (fun w => w.savedSequence = some 2 && w.storedSequence = some 2 &&
        w.process.all fun p => p.dispatched = [⟨0, 2, 0, 0⟩]) = true := by decide +kernel
  obtain ⟨w, hw, h⟩ := (Option.any_eq_true _ _).mp h
  simp only [Bool.and_eq_true, decide_eq_true_eq] at h
  obtain ⟨p, hcovers⟩ := World.covers_first h.1.1 h.1.2 h.2
  have hreached := (World.Reached.init.perform hw).mono fun _ _ => World.drained_of_handlesFirst
  obtain ⟨o, ho, hpublished⟩ := none_lost_drained hreached p _ hcovers
  exact ⟨w, p, o, hreached, hcovers, ho, hpublished⟩

/-- The dispatch is still in the stream when the process is done. -/
theorem none_lost_missed : ∃ w : World Item String,
    World.Reached Json.roles .roles (fun _ _ => True) w ∧ ¬ w.NoneLost Json.roles := by
  have h : (World.perform Json.roles .roles (fun _ _ => True) (dispatchMoves []) .init).any
      (fun w => w.savedSequence = some 2 && w.storedSequence = some 2 &&
        (w.process.all fun p => p.dispatched = [⟨0, 2, 0, 0⟩]) &&
        w.process.all fun p => p.calls.all (·.sent = [])) = true := by decide +kernel
  obtain ⟨w, hw, h⟩ := (Option.any_eq_true _ _).mp h
  simp only [Bool.and_eq_true, decide_eq_true_eq] at h
  refine ⟨w, World.Reached.init.perform hw, fun hlost => ?_⟩
  obtain ⟨p, hcovers⟩ := World.covers_first h.1.1.1 h.1.1.2 h.1.2
  obtain ⟨o, ho, exchange, kind, body, hmem⟩ := hlost p _ hcovers
  have hsent := h.2
  rw [hcovers.1] at hsent
  have hnil := of_decide_eq_true (List.all_eq_true.mp hsent o (List.mem_of_getElem? ho))
  rw [hnil] at hmem
  cases hmem

end TwilightDispatch
