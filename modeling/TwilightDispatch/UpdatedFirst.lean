import TwilightDispatch.Published
import TwilightDispatch.ReadyFirst

/-!
# The cache and what is published

A message is published by the task of its payload, while the cache is updated for its decoded event
by another task, or by the loop when the event is a ready event. Only the loop comes first: the
update of an event that a task executes may still be outstanding when the message is published, and
it may not even have been received (`updated_first_iff`).
-/

namespace TwilightDispatch

open Atomic Redis

variable {T V : Type} {J : Json T V} {P : PayloadJson V} {cfg : Config} {botId : Id .user}

/-! ## Running the loop and a task -/

section Drive

variable {events rest : List Received} {tasks : List (Task T)} {sent : List (ℕ × Effect)}
  {s : Store T}

variable (J P cfg botId events tasks sent s) in
/-- The loop finishes an update and spawns the task of its event. -/
theorem Outgoing.run_updating (item : Received)
    (p : Prog (interface T) (Except Failure (Option V))) :
    ∃ log s', Outgoing.Run J P cfg botId ⟨events, .updating item p, tasks, sent⟩ s log
      ⟨events, .waiting, tasks ++ [⟨item, item.task J P cfg botId, 0⟩], sent⟩ s' := by
  induction p generalizing s with
  | ret r => exact ⟨_, s, .step .loop rfl (.refl _ _)⟩
  | cmd c k ih =>
    obtain ⟨log, s', hrun⟩ := ih (exec c s).1 (exec c s).2
    exact ⟨_, s', .step .loop rfl hrun⟩

variable (J P cfg botId tasks sent s) in
/-- The loop receives events while no task moves. -/
theorem Outgoing.run_receive (items rest : List Received) :
    ∃ log s', Outgoing.Run J P cfg botId ⟨items ++ rest, .waiting, tasks, sent⟩ s log
      ⟨rest, .waiting, tasks ++ items.map fun item => ⟨item, item.task J P cfg botId, 0⟩, sent⟩
      s' := by
  induction items generalizing tasks s with
  | nil => exact ⟨[], s, by simpa using .refl _ _⟩
  | cons item items ih =>
    rw [List.map_cons, List.append_cons]
    by_cases hin : item.inLoop cfg = true
    · obtain ⟨log, s₁, hrun⟩ := Outgoing.run_updating J P cfg botId (items ++ rest) tasks sent s item
        (item.cacheUpdate J cfg botId)
      obtain ⟨log', s₂, hrun'⟩ := ih (tasks ++ [⟨item, item.task J P cfg botId, 0⟩]) s₁
      exact ⟨_, s₂, .step .loop (by simp [Outgoing.step, hin]) (hrun.trans hrun')⟩
    · obtain ⟨log, s₁, hrun⟩ := ih (tasks ++ [⟨item, item.task J P cfg botId, 0⟩]) s
      exact ⟨_, s₁, .step .loop (by simp [Outgoing.step, Outgoing.spawn, hin]) hrun⟩

variable (J P cfg botId events sent s) in
theorem Outgoing.run_effect (loop : Loop T V) {i n : ℕ} {item : Received} {effects : List Effect}
    {effect : Effect} (hi : tasks[i]? = some ⟨item, .ret effects, n⟩)
    (he : effects[n]? = some effect) :
    Outgoing.Run J P cfg botId ⟨events, loop, tasks, sent⟩ s []
      ⟨events, loop, tasks.set i ⟨item, .ret effects, n + 1⟩, sent ++ [(i, effect)]⟩ s := by
  have hstep : Outgoing.step J P cfg botId ⟨events, loop, tasks, sent⟩ s (.task i) =
      some (⟨events, loop, tasks.set i ⟨item, .ret effects, n + 1⟩, sent ++ [(i, effect)]⟩, s) := by
    simp [Outgoing.step, hi, he]
  have hissued : Outgoing.issued (V := V) ⟨events, loop, tasks, sent⟩ (.task i) = none := by
    simp [Outgoing.issued, hi]
  simpa [hissued] using Outgoing.Run.step (.task i) hstep (.refl _ _)

variable (J P cfg botId events sent s) in
/-- The task of a payload counts it and publishes it, while no other task moves. -/
theorem Outgoing.run_publish {i : ℕ} {item : Received}
    (hi : tasks[i]? = some ⟨item, item.task J P cfg botId, 0⟩) (hp : item.Publishes P) :
    ∃ t sent', Outgoing.Run J P cfg botId ⟨events, .waiting, tasks, sent⟩ s []
      ⟨events, .waiting, tasks.set i t, sent'⟩ s ∧
      Published (⟨events, .waiting, tasks.set i t, sent'⟩ : Outgoing T V) i := by
  obtain ⟨bytes, ⟨op, _, d, old⟩, kind, body, hevent, hfrom, rfl, hto⟩ := hp
  have hkind : item.event.kind = .shardPayload := by rw [hevent]; rfl
  have hreport : item.report P none =
      [.gatewayEvent kind (toString item.shard), .publish EXCHANGE kind body] := by
    simp [Received.report, hevent, hfrom, hto]
  rw [Received.task_of_inTask (Received.inTask_of_payload hkind), hreport] at hi
  have hlt : i < tasks.length := (List.getElem?_eq_some_iff.mp hi).1
  have hcount := Outgoing.run_effect J P cfg botId events sent s .waiting hi rfl
  have hcounted : (tasks.set i ⟨item, .ret [.gatewayEvent kind (toString item.shard),
      .publish EXCHANGE kind body], 1⟩)[i]? = some _ := List.getElem?_set_self hlt
  have hpublish := Outgoing.run_effect J P cfg botId events
    (sent ++ [(i, .gatewayEvent kind (toString item.shard))]) s .waiting hcounted rfl
  rw [List.set_set] at hpublish
  exact ⟨_, _, hcount.trans hpublish, _, _, _, List.mem_append_right _ (List.mem_singleton.mpr rfl)⟩

end Drive

/-! ## Updated before it is published -/

/-- The event at position `j` has been received, and its update of the cache has returned. -/
def Updated (o : Outgoing T V) (j : ℕ) : Prop :=
  ∃ t effects, o.tasks[j]? = some t ∧ t.prog = .ret effects

variable (J P cfg botId) in
/-- In the call with the stream `events`, from whatever state, the event at position `j` has updated
the cache whenever a message has been published for the one at position `i`. -/
def UpdatedFirst (events : List Received) (i j : ℕ) : Prop :=
  ∀ s log o s', Outgoing.Run J P cfg botId (.start events) s log o s' → Published o i → Updated o j

variable (J P cfg botId) in
/-- The loop has executed the update for the event, or there is nothing to execute. -/
def Received.Prompt (item : Received) : Prop :=
  item.inLoop cfg = true ∨ ∃ effects, item.prog J P cfg botId = .ret effects

section Pair

variable {events : List Received} {i j : ℕ} {item item' : Received}

theorem UpdatedFirst.of_prompt (hji : j < i) (hj : events[j]? = some item')
    (hprompt : item'.Prompt J P cfg botId) : UpdatedFirst J P cfg botId events i j := by
  rintro s log o s' hrun ⟨exchange, kind, body, hsent⟩
  have hrep := hrun.invariant _ (fun _ _ _ _ _ hm ho => ho.moves hm)
    (Outgoing.Reporting.start events)
  obtain ⟨t, ht, -⟩ := hrep.sent i _ hsent
  have hlt : j < o.tasks.length := hji.trans (List.getElem?_eq_some_iff.mp ht).1
  have hpool : ∀ effects, (Outgoing.pool J P cfg botId o)[j]? = some (.ret effects) →
      Updated o j := by
    intro effects hret
    obtain ⟨u, hu⟩ : ∃ u, o.tasks[j]? = some u := ⟨_, List.getElem?_eq_getElem hlt⟩
    have hu' : (Outgoing.pool J P cfg botId o)[j]? = some u.prog := getElem?_pool_task hu
    exact ⟨u, effects, hu, Option.some.inj (hu'.symm.trans hret)⟩
  rcases hprompt with hin | ⟨effects, hret⟩
  · obtain ⟨effects, he⟩ := hrun.progress.pool J P botId hj hin hlt
    exact hpool effects he
  · obtain ⟨p, hp, hissues⟩ := hrun.issues hj
    rw [hret] at hissues
    exact hpool effects (hissues.eq_ret ▸ hp)

/-- If the event comes later than its payload, or a task has its update to execute, the message may
be published first. -/
theorem UpdatedFirst.prompt (hi : events[i]? = some item) (hp : item.Publishes P)
    (hj : events[j]? = some item') (hne : i ≠ j) (h : UpdatedFirst J P cfg botId events i j) :
    j < i ∧ item'.Prompt J P cfg botId := by
  obtain ⟨log, s', hrun⟩ := Outgoing.run_receive J P cfg botId [] [] Store.empty
    (events.take (i + 1)) (events.drop (i + 1))
  rw [List.take_append_drop, List.nil_append] at hrun
  have htask : ∀ n, ((events.take (i + 1)).map fun item =>
      (⟨item, item.task J P cfg botId, 0⟩ : Task T))[n]? = if n ≤ i then
        events[n]?.map fun item => ⟨item, item.task J P cfg botId, 0⟩ else none := by
    intro n
    rw [List.getElem?_map, List.getElem?_take]
    split_ifs with h₁ h₂ h₂ <;> first | rfl | omega
  obtain ⟨t, sent', hpub, hpublished⟩ := Outgoing.run_publish J P cfg botId
    (events.drop (i + 1)) [] s' (by rw [htask, if_pos le_rfl, hi]; rfl) hp
  obtain ⟨u, effects, hu, hret⟩ := h _ _ _ _ (hrun.trans hpub) hpublished
  change (List.set _ i t)[j]? = some u at hu
  rw [List.getElem?_set_ne hne, htask, hj] at hu
  split_ifs at hu with hji
  obtain rfl := Option.some.inj hu
  refine ⟨lt_of_le_of_ne hji hne.symm, ?_⟩
  by_cases hin : item'.inLoop cfg = true
  · exact .inl hin
  · exact .inr ⟨effects, (if_neg hin).trans hret⟩

end Pair

theorem Dispatches.ne {events : List Received} (D : Dispatches events) {i j : ℕ} (h : D.pair i j) :
    i ≠ j := by
  rintro rfl
  obtain ⟨item, hi, hkind⟩ := D.payload h
  obtain ⟨item', hi', hkind'⟩ := D.decoded h
  obtain rfl := Option.some.inj (hi.symm.trans hi')
  exact hkind' hkind

/-- **The cache is updated before the message is published**, whatever the schedule, exactly if every
event of a published dispatch comes before its payload and is handled by the loop, or has nothing to
execute. -/
theorem updated_first_iff {events : List Received} (D : Dispatches events) :
    (∀ i j, D.pair i j → UpdatedFirst J P cfg botId events i j) ↔
      ∀ i j item item', D.pair i j → events[i]? = some item → item.Publishes P →
        events[j]? = some item' → j < i ∧ item'.Prompt J P cfg botId := by
  constructor
  · intro h i j item item' hD hi hp hj
    exact (h i j hD).prompt hi hp hj (D.ne hD)
  · rintro h i j hD s log o s' hrun hpub
    obtain ⟨item', hj, -⟩ := D.decoded hD
    obtain ⟨exchange, kind, body, hsent⟩ := hpub
    obtain ⟨item, hi, hr⟩ := hrun.reports hsent
    obtain ⟨bytes, payload, hevent, hfrom, -, ht, hto⟩ := hr.publish
    obtain ⟨hji, hprompt⟩ := h i j item item' hD hi ⟨bytes, payload, kind, body, hevent, hfrom, ht, hto⟩ hj
    exact UpdatedFirst.of_prompt hji hj hprompt s log o s' hrun ⟨exchange, kind, body, hsent⟩

/-- In either order of the two events, the update of a role may be published while its update of
the cache is still outstanding. -/
theorem updated_first_missed :
    ¬ UpdatedFirst Json.roles .roles .full (.of 9) roleDispatch 0 1 ∧
      ¬ UpdatedFirst Json.roles .roles .full (.of 9) roleDispatch.reverse 1 0 := by
  have hp : (⟨0, .shardPayload (rolePayloadText none), .at (.of 0)⟩ : Received).Publishes
      PayloadJson.roles := by
    refine ⟨_, rolePayload none, _, rolePayloadText none, rfl, ?_, rfl, ?_⟩
    · simp [PayloadJson.roles]
    · change PayloadJson.roles.toVec (rolePayload none) = _
      simp [PayloadJson.roles]
  refine ⟨fun h => ?_, fun h => ?_⟩
  · have hlt := (h.prompt rfl hp rfl (by decide)).1
    exact absurd hlt (by decide)
  · rcases (h.prompt rfl hp rfl (by decide)).2 with hin | ⟨effects, hret⟩
    · exact absurd hin (by decide)
    · cases hret

end TwilightDispatch
